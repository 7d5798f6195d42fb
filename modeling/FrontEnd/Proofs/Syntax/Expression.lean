import FrontEnd.Proofs.Json.ReadsBack
import FrontEnd.Syntax.Expression
import FrontEnd.Syntax.TypeExpr

/-! # Types, values and expressions are read back

The three types that contain themselves. Each has a mutual induction over the tree and the lists in it:
first that what is written can be read whole, then that reading it with enough room gives the tree again.
The induction is on the tree and not on the room, since each child is read with one or two less. Expressions
have a lemma for each of their forms, and the induction puts them together.
-/

namespace FrontEnd

theorem Position.decode_encode {p : Position} {enclosed : Bool} {room : Nat}
    (hroom : (encode p).depth ≤ room) : decode enclosed room (encode p) = some p := by
  obtain ⟨inner, rfl, -⟩ := Json.exists_room_of_object hroom
  unfold Position.instInterchange
  dsimp only
  simp [Json.slots?_object]

theorem Position.readsBack : ReadsBack Position fun _ => True where
  decode_encode _ _ _ _ := Position.decode_encode
  captured_of_decode _ _ _ _ _ := trivial
  isReadable_encode _ := rfl
  encode_ne_null _ := nofun

/-! ## Nodes of one value -/

/-- How the other fields of a tagged node are read that holds a position and one value more. -/
def readNode {α β : Type} [Interchange β] (make : Position → β → α) (field : String) (room : Nat)
    (body : Json) : Option α :=
  match body.slots? ["position", field] with
  | some [position, value] => do
    return make (← position.orElse {} (decode true room)) (← value.required (decode true room))
  | _ => none

namespace ReadsBack

variable {α β : Type} [Interchange β] {captured : β → Prop}

theorem isReadable_node (law : ReadsBack β captured) (key name field : String) (position : Position)
    (value : β) :
    (Json.tagged key name [("position", encode position), (field, encode value)]).isReadable = true := by
  rw [Json.isReadable_tagged]
  simp [Position.readsBack.isReadable_encode, law.isReadable_encode]

/-- A tagged node of a position and one value more is read back where the value is. -/
theorem variant?_node (law : ReadsBack β captured) {make : Position → β → α} {key name field : String}
    {enclosed : Bool} {room : Nat} {choices : List (String × (Json → Option α))}
    (hchoice : choices.lookup name = some (readNode make field room))
    (hkey : ["position", field, key].Nodup) {position : Position} {value : β} (hcaptured : captured value)
    (hroom : (Json.tagged key name [("position", encode position), (field, encode value)]).depth
      ≤ room + 1) :
    (Json.tagged key name [("position", encode position), (field, encode value)]).variant? enclosed
      (room + 1) key choices = some (make position value) := by
  obtain ⟨inner, hinner, hfields⟩ := Json.exists_room_of_tagged hroom
  obtain rfl := Nat.succ.inj hinner
  simp only [List.forall_mem_cons] at hfields
  obtain ⟨hposition, hvalue, -⟩ := hfields
  simp only [List.nodup_cons, List.mem_cons, List.not_mem_nil, or_false, not_or] at hkey
  obtain ⟨⟨hfield, hpositionKey⟩, hfieldKey, -⟩ := hkey
  rw [Json.variant?_tagged (by simp [Ne.symm hpositionKey, Ne.symm hfieldKey]) hroom
    (law.isReadable_node key name field position value) hchoice]
  simp [readNode, Json.slots?_object, hfield, Position.decode_encode hposition,
    law.decode_encode value hcaptured true room hvalue]

theorem captured_of_readNode (law : ReadsBack β captured) {make : Position → β → α} {field : String}
    {room : Nat} {body : Json} {node : α} (h : readNode make field room body = some node) :
    ∃ position value, node = make position value ∧ captured value := by
  rw [readNode] at h
  split at h
  · simp only [bind, Option.bind_eq_some_iff] at h
    obtain ⟨position, -, value, hvalue, h⟩ := h
    exact ⟨position, value, (Option.some.inj h).symm, law.captured_of_required hvalue⟩
  · cases h

end ReadsBack

/-! ## Types -/

namespace TypeExpr

mutual

theorem isReadable_toJson : ∀ t : TypeExpr, t.toJson.isReadable = true
  | .mk name generics => by
    have hgenerics := isReadable_allToJson generics
    rw [toJson, Json.isReadable_object]
    simpa [Json.isReadable_array] using ⟨String.readsBack.isReadable_encode name, hgenerics⟩

theorem isReadable_allToJson : ∀ ts : List TypeExpr, ∀ item ∈ allToJson ts, item.isReadable = true
  | [] => by simp [allToJson]
  | t :: rest => by
    rw [allToJson, List.forall_mem_cons]
    exact ⟨isReadable_toJson t, isReadable_allToJson rest⟩

end

mutual

theorem ofJson?_toJson : ∀ (t : TypeExpr) (enclosed : Bool) (room : Nat), t.toJson.depth ≤ room →
    ofJson? enclosed room t.toJson = some t
  | .mk name generics, enclosed, room, hroom => by
    obtain ⟨inner, rfl, hinner⟩ := Json.exists_room_of_object hroom
    simp only [List.forall_mem_cons] at hinner
    obtain ⟨-, hgenerics, -⟩ := hinner
    obtain ⟨least, rfl, hitems⟩ := Json.exists_room_of_array hgenerics
    rw [toJson, ofJson?]
    simp [Json.slots?_object, allOfJson?, mapM_ofJson?_allToJson generics enclosed least hitems]

theorem mapM_ofJson?_allToJson : ∀ (ts : List TypeExpr) (enclosed : Bool) (room : Nat),
    (∀ item ∈ allToJson ts, item.depth ≤ room) →
    (allToJson ts).mapM (ofJson? enclosed room) = some ts
  | [], _, _, _ => rfl
  | t :: rest, enclosed, room, hroom => by
    rw [allToJson, List.forall_mem_cons] at hroom
    rw [allToJson, List.mapM_cons, ofJson?_toJson t enclosed room hroom.1,
      mapM_ofJson?_allToJson rest enclosed room hroom.2]
    rfl

end

theorem readsBack : ReadsBack TypeExpr fun _ => True where
  decode_encode t _ := ofJson?_toJson t
  captured_of_decode _ _ _ _ _ := trivial
  isReadable_encode := isReadable_toJson
  encode_ne_null t := by
    cases t
    exact nofun

end TypeExpr

/-! ## Values -/

namespace Value

mutual

theorem isReadable_toJson : ∀ v : Value, v.toJson.isReadable = true
  | .scalar .. => rfl
  | .group kind position members => by
    have hmembers := Json.isReadable_array.mpr (isReadable_allToJson members)
    rw [toJson, Json.isReadable_tagged]
    simpa using ⟨Position.readsBack.isReadable_encode position, hmembers⟩

theorem isReadable_allToJson : ∀ vs : List Value, ∀ item ∈ allToJson vs, item.isReadable = true
  | [] => by simp [allToJson]
  | v :: rest => by
    rw [allToJson, List.forall_mem_cons]
    exact ⟨isReadable_toJson v, isReadable_allToJson rest⟩

end

theorem scalarOf_object (kind : ScalarKind) (text : String) {position : Position} {room : Nat}
    (hposition : decode true room (encode position) = some position) :
    scalarOf kind room (.object [("position", encode position), ("value", .string text)]) =
      some (.scalar kind position text) := by
  have htext : decode true room (Json.string text) = some text := rfl
  simp [scalarOf, Json.slots?_object, hposition, htext]

theorem groupOf_object (kind : GroupKind) {position : Position} {room : Nat}
    {readAll : Json → Option (List Value)} {json : Json} {members : List Value}
    (hposition : decode true room (encode position) = some position)
    (hmembers : readAll json = some members) :
    groupOf kind room readAll (.object [("position", encode position), (kind.memberField, json)]) =
      some (.group kind position members) := by
  have hne : "position" ≠ kind.memberField := by cases kind <;> simp [GroupKind.memberField]
  simp [groupOf, Json.slots?_object, hne, hposition, hmembers]

mutual

theorem ofJson?_toJson : ∀ (v : Value) (enclosed : Bool) (room : Nat), v.toJson.depth ≤ room →
    ofJson? enclosed room v.toJson = some v
  | .scalar kind position text, enclosed, room, hroom => by
    have hreadable := isReadable_toJson (.scalar kind position text)
    rw [toJson] at hroom hreadable ⊢
    obtain ⟨inner, rfl, hinner⟩ := Json.exists_room_of_tagged hroom
    simp only [List.forall_mem_cons] at hinner
    obtain ⟨hposition, -⟩ := hinner
    rw [ofJson?]
    refine (Json.variant?_tagged (by simp) hroom hreadable ?_).trans
      (scalarOf_object kind text (Position.decode_encode hposition))
    cases kind <;> simp [ScalarKind.name, List.lookup_cons]
  | .group kind position members, enclosed, room, hroom => by
    have hreadable := isReadable_toJson (.group kind position members)
    rw [toJson] at hroom hreadable ⊢
    obtain ⟨inner, rfl, hinner⟩ := Json.exists_room_of_tagged hroom
    simp only [List.forall_mem_cons] at hinner
    obtain ⟨hposition, hmembers, -⟩ := hinner
    obtain ⟨least, rfl, hitems⟩ := Json.exists_room_of_array hmembers
    have hmembers : allOfJson? (least + 1) (.array (allToJson members)) = some members :=
      mapM_ofJson?_allToJson members least hitems
    have hkey : "kind" ≠ kind.memberField := by cases kind <;> simp [GroupKind.memberField]
    rw [ofJson?]
    refine (Json.variant?_tagged (by simp [hkey]) hroom hreadable ?_).trans
      (groupOf_object kind (Position.decode_encode hposition) hmembers)
    cases kind <;> simp [GroupKind.name, List.lookup_cons]

theorem mapM_ofJson?_allToJson : ∀ (vs : List Value) (room : Nat),
    (∀ item ∈ allToJson vs, item.depth ≤ room) → (allToJson vs).mapM (ofJson? true room) = some vs
  | [], _, _ => rfl
  | v :: rest, room, hroom => by
    rw [allToJson, List.forall_mem_cons] at hroom
    rw [allToJson, List.mapM_cons, ofJson?_toJson v true room hroom.1,
      mapM_ofJson?_allToJson rest room hroom.2]
    rfl

end

theorem readsBack : ReadsBack Value fun _ => True where
  decode_encode v _ := ofJson?_toJson v
  captured_of_decode _ _ _ _ _ := trivial
  isReadable_encode := isReadable_toJson
  encode_ne_null v := by
    cases v <;> exact nofun

end Value

/-! ## Expressions -/

namespace Expression

theorem toJson_ne_null (e : Expression) : e.toJson ≠ .null := by
  cases e <;> exact nofun

mutual

theorem isReadable_toJson : ∀ e : Expression, e.toJson.isReadable = true
  | .blockConditional position condition execution subConditionals alternative => by
    have hexecution := Json.isReadable_array.mpr (isReadable_allToJson execution)
    have hbranches := Json.isReadable_array.mpr (isReadable_branchesToJson subConditionals)
    have halternative := Json.isReadable_array.mpr (isReadable_allToJson alternative)
    rw [toJson, Json.isReadable_tagged]
    simp [Position.readsBack.isReadable_encode, isReadable_toJson condition, hexecution, hbranches,
      halternative]
  | .label position name resolution => by
    rw [toJson, Json.isReadable_tagged]
    simp [Position.readsBack.isReadable_encode, String.readsBack.isReadable_encode,
      isReadable_toJson resolution]
  | .inlineConditional position condition execution => by
    rw [toJson, Json.isReadable_tagged]
    simp [Position.readsBack.isReadable_encode, isReadable_toJson condition, isReadable_toJson execution]
  | .parenthetical position execution next => by
    rw [toJson, Json.isReadable_tagged]
    simp [Position.readsBack.isReadable_encode, isReadable_toJson execution, isReadable_nextToJson next]
  | .capture position execution next => by
    rw [toJson, Json.isReadable_tagged]
    simp [Position.readsBack.isReadable_encode, isReadable_toJson execution, isReadable_nextToJson next]
  | .reference position names next => by
    rw [toJson, Json.isReadable_tagged]
    simp [Position.readsBack.isReadable_encode, String.readsBack.list.isReadable_encode,
      isReadable_nextToJson next]
  | .operator position sign next => by
    rw [toJson, Json.isReadable_tagged]
    simp [Position.readsBack.isReadable_encode, String.readsBack.isReadable_encode,
      isReadable_nextToJson next]
  | .literal position value => by
    rw [toJson]
    exact Value.readsBack.isReadable_node "kind" "Literal" "value" position value

theorem isReadable_allToJson : ∀ es : List Expression, ∀ item ∈ allToJson es, item.isReadable = true
  | [] => by simp [allToJson]
  | e :: rest => by
    rw [allToJson, List.forall_mem_cons]
    exact ⟨isReadable_toJson e, isReadable_allToJson rest⟩

theorem isReadable_branchesToJson : ∀ branches : List SubConditional,
    ∀ item ∈ branchesToJson branches, item.isReadable = true
  | [] => by simp [branchesToJson]
  | .mk position condition execution :: rest => by
    have hexecution := Json.isReadable_array.mpr (isReadable_allToJson execution)
    rw [branchesToJson, List.forall_mem_cons, Json.isReadable_object]
    refine ⟨?_, isReadable_branchesToJson rest⟩
    simp [Position.readsBack.isReadable_encode, isReadable_toJson condition, hexecution]

theorem isReadable_nextToJson : ∀ next : Option Expression, (nextToJson next).isReadable = true
  | none => rfl
  | some e => by
    rw [nextToJson]
    exact isReadable_toJson e

end

/-- An expression is read back, wherever it stands. What an expression holds has a reader of its own, and
its own form of this. -/
def ComesBack (e : Expression) : Prop :=
  ∀ enclosed room, e.toJson.depth ≤ room → ofJson? enclosed room e.toJson = some e

def AllComeBack (es : List Expression) : Prop :=
  ∀ room, (Json.array (allToJson es)).depth ≤ room → allOfJson? room (.array (allToJson es)) = some es

def BranchesComeBack (branches : List SubConditional) : Prop :=
  ∀ room, (Json.array (branchesToJson branches)).depth ≤ room →
    branchesOfJson? room (.array (branchesToJson branches)) = some branches

def NextComesBack (next : Option Expression) : Prop :=
  ∀ room, (nextToJson next).depth ≤ room →
    (Json.Slot.given (nextToJson next)).nullableOrElse (ofJson? true room) = some next

theorem comesBack_of_tagged {e : Expression} {name : String} {fields : List (String × Json)}
    (hjson : e.toJson = Json.tagged "kind" name fields)
    (hread : ∀ enclosed inner, (Json.tagged "kind" name fields).depth ≤ inner + 1 →
      (Json.tagged "kind" name fields).isReadable = true → (∀ field ∈ fields, field.2.depth ≤ inner) →
      ofJson? enclosed (inner + 1) (Json.tagged "kind" name fields) = some e) : ComesBack e := by
  intro enclosed room hroom
  have hreadable := isReadable_toJson e
  rw [hjson] at hroom hreadable ⊢
  obtain ⟨inner, rfl, hinner⟩ := Json.exists_room_of_tagged hroom
  exact hread enclosed inner hroom hreadable hinner

section Constructors

variable {position : Position} {condition execution resolution : Expression}
  {instructions alternative : List Expression} {branches : List SubConditional}
  {next : Option Expression}

theorem comesBack_blockConditional (hcondition : ComesBack condition)
    (hinstructions : AllComeBack instructions) (hbranches : BranchesComeBack branches)
    (halternative : AllComeBack alternative) :
    ComesBack (.blockConditional position condition instructions branches alternative) := by
  refine comesBack_of_tagged rfl fun enclosed inner hroom hreadable hinner => ?_
  simp only [List.forall_mem_cons] at hinner
  obtain ⟨hpositionRoom, hconditionRoom, hinstructionsRoom, hbranchesRoom, halternativeRoom, -⟩ := hinner
  -- the tag picks the reader, and each field is read with the room that is left inside
  rw [ofJson?]
  refine (Json.variant?_tagged (by simp) hroom hreadable
    (by simp only [List.lookup_cons, BEq.rfl]; rfl)).trans ?_
  simp [Json.slots?_object, Position.decode_encode hpositionRoom,
    hcondition true inner hconditionRoom, hinstructions inner hinstructionsRoom,
    hbranches inner hbranchesRoom, halternative inner halternativeRoom]

theorem comesBack_label {name : String} (hresolution : ComesBack resolution) :
    ComesBack (.label position name resolution) := by
  refine comesBack_of_tagged rfl fun enclosed inner hroom hreadable hinner => ?_
  simp only [List.forall_mem_cons] at hinner
  obtain ⟨hpositionRoom, -, hresolutionRoom, -⟩ := hinner
  rw [ofJson?]
  refine (Json.variant?_tagged (by simp) hroom hreadable
    (by simp only [List.lookup_cons, String.reduceBEq, BEq.rfl]; rfl)).trans ?_
  simp [Json.slots?_object, Position.decode_encode hpositionRoom,
    hresolution true inner hresolutionRoom]

theorem comesBack_inlineConditional (hcondition : ComesBack condition)
    (hexecution : ComesBack execution) :
    ComesBack (.inlineConditional position condition execution) := by
  refine comesBack_of_tagged rfl fun enclosed inner hroom hreadable hinner => ?_
  simp only [List.forall_mem_cons] at hinner
  obtain ⟨hpositionRoom, hconditionRoom, hexecutionRoom, -⟩ := hinner
  rw [ofJson?]
  refine (Json.variant?_tagged (by simp) hroom hreadable
    (by simp only [List.lookup_cons, String.reduceBEq, BEq.rfl]; rfl)).trans ?_
  simp [Json.slots?_object, Position.decode_encode hpositionRoom,
    hcondition true inner hconditionRoom, hexecution true inner hexecutionRoom]

theorem comesBack_parenthetical (hexecution : ComesBack execution) (hnext : NextComesBack next) :
    ComesBack (.parenthetical position execution next) := by
  refine comesBack_of_tagged rfl fun enclosed inner hroom hreadable hinner => ?_
  simp only [List.forall_mem_cons] at hinner
  obtain ⟨hpositionRoom, hexecutionRoom, hnextRoom, -⟩ := hinner
  rw [ofJson?]
  refine (Json.variant?_tagged (by simp) hroom hreadable
    (by simp only [List.lookup_cons, String.reduceBEq, BEq.rfl]; rfl)).trans ?_
  simp [Json.slots?_object, Position.decode_encode hpositionRoom,
    hexecution true inner hexecutionRoom, hnext inner hnextRoom]

theorem comesBack_capture (hexecution : ComesBack execution) (hnext : NextComesBack next) :
    ComesBack (.capture position execution next) := by
  refine comesBack_of_tagged rfl fun enclosed inner hroom hreadable hinner => ?_
  simp only [List.forall_mem_cons] at hinner
  obtain ⟨hpositionRoom, hexecutionRoom, hnextRoom, -⟩ := hinner
  rw [ofJson?]
  refine (Json.variant?_tagged (by simp) hroom hreadable
    (by simp only [List.lookup_cons, String.reduceBEq, BEq.rfl]; rfl)).trans ?_
  simp [Json.slots?_object, Position.decode_encode hpositionRoom,
    hexecution true inner hexecutionRoom, hnext inner hnextRoom]

theorem comesBack_reference {names : List String} (hnext : NextComesBack next) :
    ComesBack (.reference position names next) := by
  refine comesBack_of_tagged rfl fun enclosed inner hroom hreadable hinner => ?_
  simp only [List.forall_mem_cons] at hinner
  obtain ⟨hpositionRoom, hnamesRoom, hnextRoom, -⟩ := hinner
  have hnames := String.readsBack.list.decode_encode names (by simp) true inner hnamesRoom
  rw [ofJson?]
  refine (Json.variant?_tagged (by simp) hroom hreadable
    (by simp only [List.lookup_cons, String.reduceBEq, BEq.rfl]; rfl)).trans ?_
  simp [Json.slots?_object, Position.decode_encode hpositionRoom, hnames,
    hnext inner hnextRoom]

theorem comesBack_operator {sign : String} (hnext : NextComesBack next) :
    ComesBack (.operator position sign next) := by
  refine comesBack_of_tagged rfl fun enclosed inner hroom hreadable hinner => ?_
  simp only [List.forall_mem_cons] at hinner
  obtain ⟨hpositionRoom, -, hnextRoom, -⟩ := hinner
  rw [ofJson?]
  refine (Json.variant?_tagged (by simp) hroom hreadable
    (by simp only [List.lookup_cons, String.reduceBEq, BEq.rfl]; rfl)).trans ?_
  simp [Json.slots?_object, Position.decode_encode hpositionRoom, hnext inner hnextRoom]

theorem comesBack_literal {value : Value} : ComesBack (.literal position value) := by
  refine comesBack_of_tagged rfl fun enclosed inner hroom _ _ => ?_
  exact Value.readsBack.variant?_node rfl (by simp) trivial hroom

theorem allComeBack_cons {e : Expression} (he : ComesBack e) (hrest : AllComeBack instructions) :
    AllComeBack (e :: instructions) := by
  intro room hroom
  obtain ⟨inner, rfl, hinner⟩ := Json.exists_room_of_array hroom
  rw [allToJson, List.forall_mem_cons] at hinner
  have hothers := hrest (inner + 1) (Json.depth_array_le_succ_iff.mpr hinner.2)
  rw [allOfJson?] at hothers ⊢
  rw [allToJson, List.mapM_cons, he true inner hinner.1, hothers]
  rfl

theorem branchesComeBack_cons (hcondition : ComesBack condition)
    (hinstructions : AllComeBack instructions) (hrest : BranchesComeBack branches) :
    BranchesComeBack (.mk position condition instructions :: branches) := by
  intro room hroom
  obtain ⟨outer, rfl, houter⟩ := Json.exists_room_of_array hroom
  rw [branchesToJson, List.forall_mem_cons] at houter
  have hothers := hrest (outer + 1) (Json.depth_array_le_succ_iff.mpr houter.2)
  obtain ⟨inner, rfl, hinner⟩ := Json.exists_room_of_object houter.1
  simp only [List.forall_mem_cons] at hinner
  obtain ⟨hpositionRoom, hconditionRoom, hinstructionsRoom, -⟩ := hinner
  rw [branchesOfJson?] at hothers ⊢
  rw [branchesToJson, List.mapM_cons, hothers, branchOfJson?]
  simp [Json.slots?_object, Position.decode_encode hpositionRoom, hcondition true inner hconditionRoom,
    hinstructions inner hinstructionsRoom]

theorem nextComesBack_some {e : Expression} (he : ComesBack e) : NextComesBack (some e) := by
  intro room hroom
  rw [nextToJson] at hroom ⊢
  rw [Json.Slot.nullableOrElse_of_ne _ (toJson_ne_null e), he true room hroom, Option.map_some]

end Constructors

mutual

theorem comesBack : ∀ e : Expression, ComesBack e
  | .blockConditional _ condition execution subConditionals alternative =>
    comesBack_blockConditional (comesBack condition) (allComeBack execution)
      (branchesComeBack subConditionals) (allComeBack alternative)
  | .label _ _ resolution => comesBack_label (comesBack resolution)
  | .inlineConditional _ condition execution =>
    comesBack_inlineConditional (comesBack condition) (comesBack execution)
  | .parenthetical _ execution next => comesBack_parenthetical (comesBack execution) (nextComesBack next)
  | .capture _ execution next => comesBack_capture (comesBack execution) (nextComesBack next)
  | .reference _ _ next => comesBack_reference (nextComesBack next)
  | .operator _ _ next => comesBack_operator (nextComesBack next)
  | .literal _ _ => comesBack_literal

theorem allComeBack : ∀ es : List Expression, AllComeBack es
  | [] => fun room hroom => by
    obtain ⟨inner, rfl, -⟩ := Json.exists_room_of_array hroom
    rfl
  | e :: rest => allComeBack_cons (comesBack e) (allComeBack rest)

theorem branchesComeBack : ∀ branches : List SubConditional, BranchesComeBack branches
  | [] => fun room hroom => by
    obtain ⟨inner, rfl, -⟩ := Json.exists_room_of_array hroom
    rfl
  | .mk _ condition execution :: rest =>
    branchesComeBack_cons (comesBack condition) (allComeBack execution) (branchesComeBack rest)

theorem nextComesBack : ∀ next : Option Expression, NextComesBack next
  | none => fun _ _ => rfl
  | some e => nextComesBack_some (comesBack e)

end

theorem readsBack : ReadsBack Expression fun _ => True where
  decode_encode e _ := comesBack e
  captured_of_decode _ _ _ _ _ := trivial
  isReadable_encode := isReadable_toJson
  encode_ne_null := toJson_ne_null

end Expression

end FrontEnd
