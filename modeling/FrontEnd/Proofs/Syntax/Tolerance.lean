import FrontEnd.Proofs.Json.Tolerance
import FrontEnd.Proofs.Syntax.Shape
import FrontEnd.Proofs.Syntax.SourceTree

/-! # What the format of syntax trees tolerates

The reader of each type of the grammar follows the shapes of its values. For a record this is put together
from the readers of its fields, in the order in which the record reads them; for a variant from the record
behind the tag. The types that contain themselves go by mutual induction over the tree and the lists in it,
with one lemma for each kind of expression. What the format tolerates then holds of all types alike.
-/

namespace FrontEnd

/-! ## Plain values, lists and positions -/

theorem String.reads (s : String) (enclosed : Bool) : Reads (decode enclosed) (.text s) s :=
  leaf_reads fun _ => rfl

theorem UInt64.reads (n : UInt64) (enclosed : Bool) : Reads (decode enclosed) (.leaf (encode n)) n :=
  leaf_reads fun room => decode_encode_word n enclosed room

theorem decode_list_eq_readItems {α : Type} [Interchange α] (enclosed : Bool) :
    (decode enclosed : Nat → Json → Option (List α)) = readItems (decode enclosed) := by
  funext room json
  cases room with
  | zero => rfl
  | succ room => cases json <;> rfl

theorem list_reads {α : Type} [Interchange α] {shape : α → Shape} {items : List α} {enclosed : Bool}
    (h : ∀ a ∈ items, Reads (decode enclosed) (shape a) a) :
    Reads (decode enclosed) (.list (items.map shape)) items := by
  rw [decode_list_eq_readItems]
  exact readItems_reads h

theorem strings_reads (texts : List String) (enclosed : Bool) :
    Reads (decode enclosed) (.list (texts.map .text)) texts :=
  list_reads fun text _ => String.reads text enclosed

theorem listField_reads {α : Type} {read : Nat → Json → Option (List α)} {shape : α → Shape}
    {name : String} {items : List α} (h : Reads read (.list (items.map shape)) items) :
    FieldReads (fun room slot => slot.orElse [] (read room)) (listField name shape items) items :=
  h.orElse List.isEmpty_iff.mp

namespace Position

theorem reads (p : Position) (enclosed : Bool) : Reads (decode enclosed) p.shape p := by
  refine RecordReads.reads (fun _ => rfl) ?_
  refine .of_fields Position.mk
    (.cons ((String.reads p.filename enclosed).orElse eq_of_beq) <|
      .cons ((UInt64.reads p.offset enclosed).orElse eq_of_beq) <|
      .cons ((UInt64.reads p.line enclosed).orElse eq_of_beq) <|
      .cons ((UInt64.reads p.column enclosed).orElse eq_of_beq) <| .nil _)
    ["filename", "offset", "line", "column"] rfl (by decide) fun room json slot h => ?_
  unfold Position.instInterchange
  dsimp only
  rw [h]
  rfl

theorem field_reads (p : Position) (enclosed : Bool) :
    FieldReads (fun room slot => slot.orElse {} (decode enclosed room)) p.field p :=
  (p.reads enclosed).orElse of_decide_eq_true

end Position

theorem readNode_reads {α β : Type} [Interchange β] {make : Position → β → α} {field : String}
    {shape : Shape} {position : Position} {value : β} (h : Reads (decode true) shape value)
    (hfield : "position" ≠ field) :
    RecordReads (readNode make field) [position.field, .required field shape] (make position value) := by
  refine .of_fields make (.cons (position.field_reads true) <| .cons h.required <| .nil _)
    ["position", field] rfl (by simp [hfield]) fun room json slot h => ?_
  rw [readNode, h]
  rfl

/-! ## Types -/

namespace TypeExpr

theorem allOfJson?_eq_readItems (enclosed : Bool) : allOfJson? enclosed = readItems (ofJson? enclosed) := by
  funext room json
  cases room with
  | zero => simp [allOfJson?, readItems]
  | succ room => cases json <;> simp [allOfJson?, readItems]

mutual

theorem reads (enclosed : Bool) : ∀ t : TypeExpr, Reads (ofJson? enclosed) t.shape t
  | .mk name generics => by
    have hgenerics : Reads (allOfJson? enclosed) (.list (shapeAll generics)) generics := by
      rw [allOfJson?_eq_readItems, shapeAll_eq_map]
      exact readItems_reads (readsAll enclosed generics)
    rw [shape]
    refine RecordReads.reads (fun _ => rfl) ?_
    refine .of_fields TypeExpr.mk
      (.cons (String.reads name enclosed).required <|
        .cons (hgenerics.orElse List.isEmpty_iff.mp) <| .nil _)
      ["name", "generics"] rfl (by decide) fun room json slot h => ?_
    rw [ofJson?, h]
    rfl

theorem readsAll (enclosed : Bool) : ∀ ts : List TypeExpr, ∀ t ∈ ts, Reads (ofJson? enclosed) t.shape t
  | [] => nofun
  | t :: rest => List.forall_mem_cons.mpr ⟨reads enclosed t, readsAll enclosed rest⟩

end

end TypeExpr

/-! ## Values -/

namespace Value

theorem allOfJson?_eq_readItems : allOfJson? = readItems (ofJson? true) := by
  funext room json
  cases room with
  | zero => simp [allOfJson?, readItems]
  | succ room => cases json <;> simp [allOfJson?, readItems]

theorem scalarOf_reads (kind : ScalarKind) (position : Position) (text : String) :
    RecordReads (scalarOf kind) [position.field, .required "value" (.text text)]
      (.scalar kind position text) :=
  readNode_reads (String.reads text true) (by decide)

theorem groupOf_reads (kind : GroupKind) (position : Position) {members : List Value}
    (h : Reads allOfJson? (.list (shapeAll members)) members) :
    RecordReads (fun room => groupOf kind room (allOfJson? room))
      [position.field, .required kind.memberField (.list (shapeAll members))]
      (.group kind position members) := by
  refine .of_fields (Value.group kind) (.cons (position.field_reads true) <| .cons h.required <| .nil _)
    ["position", kind.memberField] rfl (by cases kind <;> decide) fun room json slot h => ?_
  rw [groupOf, h]
  rfl

mutual

theorem reads (enclosed : Bool) : ∀ v : Value, Reads (ofJson? enclosed) v.shape v
  | .scalar kind position text =>
    variant_reads (fun _ => rfl) (fun _ _ => rfl) (fun _ => by cases kind <;> rfl) (by simp)
      (scalarOf_reads kind position text)
  | .group kind position members => by
    have hmembers : Reads allOfJson? (.list (shapeAll members)) members := by
      rw [allOfJson?_eq_readItems, shapeAll_eq_map]
      exact readItems_reads (readsAll members)
    exact variant_reads (fun _ => rfl) (fun _ _ => rfl) (fun _ => by cases kind <;> rfl)
      (by cases kind <;> simp [GroupKind.memberField]) (groupOf_reads kind position hmembers)

theorem readsAll : ∀ vs : List Value, ∀ v ∈ vs, Reads (ofJson? true) v.shape v
  | [] => nofun
  | v :: rest => List.forall_mem_cons.mpr ⟨reads true v, readsAll rest⟩

end

end Value

/-! ## Expressions -/

namespace Expression

theorem allOfJson?_eq_readItems : allOfJson? = readItems (ofJson? true) := by
  funext room json
  cases room with
  | zero => simp [allOfJson?, readItems]
  | succ room => cases json <;> simp [allOfJson?, readItems]

theorem branchesOfJson?_eq_readItems : branchesOfJson? = readItems branchOfJson? := by
  funext room json
  cases room with
  | zero => simp [branchesOfJson?, readItems]
  | succ room => cases json <;> simp [branchesOfJson?, readItems]

/-- How the other fields of a link of a chain are read: a position, one value more and what follows. -/
def readLink {β : Type} (make : Position → β → Option Expression → Expression) (field : String)
    (read : Nat → Json → Option β) (room : Nat) (body : Json) : Option Expression :=
  match body.slots? ["position", field, "next"] with
  | some [position, value, next] => do
    return make (← position.orElse {} (decode true room)) (← value.required (read room))
      (← next.nullableOrElse (ofJson? true room))
  | _ => none

theorem shape_ne_null (e : Expression) : e.shape ≠ .leaf .null := by
  cases e <;> exact nofun

section Constructors

variable {position : Position} {condition execution resolution : Expression}
  {instructions alternative : List Expression} {branches : List SubConditional}
  {next : Option Expression} {enclosed : Bool}

theorem allOfJson?_reads (h : ∀ e ∈ instructions, Reads (ofJson? true) e.shape e) :
    Reads allOfJson? (.list (shapeAll instructions)) instructions := by
  rw [allOfJson?_eq_readItems, shapeAll_eq_map]
  exact readItems_reads h

theorem branchesOfJson?_reads (h : ∀ branch ∈ branches, Reads branchOfJson? (branchShape branch) branch) :
    Reads branchesOfJson? (.list (branchShapes branches)) branches := by
  rw [branchesOfJson?_eq_readItems, branchShapes_eq_map]
  exact readItems_reads h

theorem next_reads (h : ∀ e ∈ next, Reads (ofJson? true) e.shape e) :
    FieldReads (fun room slot => slot.nullableOrElse (ofJson? true room))
      (.optional "next" next.isNone (nextShape next)) next := by
  rw [nextShape_eq_optionShape]
  exact nullableOrElse_reads fun e he => ⟨h e he, shape_ne_null e⟩

theorem readLink_reads {β : Type} {make : Position → β → Option Expression → Expression} {field : String}
    {read : Nat → Json → Option β} {shape : Shape} {value : β} (hvalue : Reads read shape value)
    (hnext : ∀ e ∈ next, Reads (ofJson? true) e.shape e) (hfield : ["position", field, "next"].Nodup) :
    RecordReads (readLink make field read)
      [position.field, .required field shape, .optional "next" next.isNone (nextShape next)]
      (make position value next) := by
  refine .of_fields make
    (.cons (position.field_reads true) <| .cons hvalue.required <| .cons (next_reads hnext) <| .nil _)
    ["position", field, "next"] rfl hfield fun room json slot h => ?_
  rw [readLink, h]
  rfl

theorem blockConditional_reads (hcondition : Reads (ofJson? true) condition.shape condition)
    (hinstructions : ∀ e ∈ instructions, Reads (ofJson? true) e.shape e)
    (hbranches : ∀ branch ∈ branches, Reads branchOfJson? (branchShape branch) branch)
    (halternative : ∀ e ∈ alternative, Reads (ofJson? true) e.shape e) :
    Reads (ofJson? enclosed) (shape (.blockConditional position condition instructions branches alternative))
      (.blockConditional position condition instructions branches alternative) := by
  rw [shape]
  -- the tag picks the reader of this kind, which reads the slots in the order of the fields
  refine variant_reads (fun _ => rfl) (fun _ _ => rfl) (fun _ => rfl) (by simp) ?_
  refine .of_fields blockConditional
    (.cons (position.field_reads true) <| .cons hcondition.required <|
      .cons (allOfJson?_reads hinstructions).required <|
      .cons ((branchesOfJson?_reads hbranches).orElse List.isEmpty_iff.mp) <|
      .cons ((allOfJson?_reads halternative).orElse List.isEmpty_iff.mp) <| .nil _)
    ["position", "condition", "execution", "sub_conditionals", "alternative"] rfl (by decide)
    fun room json slot h => ?_
  rw [h]
  rfl

theorem label_reads {name : String} (hresolution : Reads (ofJson? true) resolution.shape resolution) :
    Reads (ofJson? enclosed) (shape (.label position name resolution)) (.label position name resolution) := by
  rw [shape]
  refine variant_reads (fun _ => rfl) (fun _ _ => rfl) (fun _ => rfl) (by simp) ?_
  refine .of_fields label
    (.cons (position.field_reads true) <| .cons (String.reads name true).required <|
      .cons hresolution.required <| .nil _)
    ["position", "label", "resolution"] rfl (by decide) fun room json slot h => ?_
  rw [h]
  rfl

theorem inlineConditional_reads (hcondition : Reads (ofJson? true) condition.shape condition)
    (hexecution : Reads (ofJson? true) execution.shape execution) :
    Reads (ofJson? enclosed) (shape (.inlineConditional position condition execution))
      (.inlineConditional position condition execution) := by
  rw [shape]
  refine variant_reads (fun _ => rfl) (fun _ _ => rfl) (fun _ => rfl) (by simp) ?_
  refine .of_fields inlineConditional
    (.cons (position.field_reads true) <| .cons hcondition.required <| .cons hexecution.required <|
      .nil _)
    ["position", "condition", "execution"] rfl (by decide) fun room json slot h => ?_
  rw [h]
  rfl

theorem parenthetical_reads (hexecution : Reads (ofJson? true) execution.shape execution)
    (hnext : ∀ e ∈ next, Reads (ofJson? true) e.shape e) :
    Reads (ofJson? enclosed) (shape (.parenthetical position execution next))
      (.parenthetical position execution next) := by
  rw [shape]
  exact variant_reads (fun _ => rfl) (fun _ _ => rfl) (fun _ => rfl) (by simp)
    (readLink_reads hexecution hnext (by decide))

theorem capture_reads (hexecution : Reads (ofJson? true) execution.shape execution)
    (hnext : ∀ e ∈ next, Reads (ofJson? true) e.shape e) :
    Reads (ofJson? enclosed) (shape (.capture position execution next))
      (.capture position execution next) := by
  rw [shape]
  exact variant_reads (fun _ => rfl) (fun _ _ => rfl) (fun _ => rfl) (by simp)
    (readLink_reads hexecution hnext (by decide))

theorem reference_reads {names : List String} (hnext : ∀ e ∈ next, Reads (ofJson? true) e.shape e) :
    Reads (ofJson? enclosed) (shape (.reference position names next)) (.reference position names next) := by
  rw [shape]
  exact variant_reads (fun _ => rfl) (fun _ _ => rfl) (fun _ => rfl) (by simp)
    (readLink_reads (strings_reads names true) hnext (by decide))

theorem operator_reads {sign : String} (hnext : ∀ e ∈ next, Reads (ofJson? true) e.shape e) :
    Reads (ofJson? enclosed) (shape (.operator position sign next)) (.operator position sign next) := by
  rw [shape]
  exact variant_reads (fun _ => rfl) (fun _ _ => rfl) (fun _ => rfl) (by simp)
    (readLink_reads (String.reads sign true) hnext (by decide))

theorem literal_reads {value : Value} :
    Reads (ofJson? enclosed) (shape (.literal position value)) (.literal position value) := by
  have hvalue : Reads (decode true) value.shape value := value.reads true
  rw [shape]
  exact variant_reads (fun _ => rfl) (fun _ _ => rfl) (fun _ => rfl) (by simp)
    (readNode_reads hvalue (by decide))

theorem branch_reads (hcondition : Reads (ofJson? true) condition.shape condition)
    (hinstructions : ∀ e ∈ instructions, Reads (ofJson? true) e.shape e) :
    Reads branchOfJson? (branchShape (.mk position condition instructions))
      (.mk position condition instructions) := by
  rw [branchShape]
  refine RecordReads.reads (fun _ => rfl) ?_
  refine .of_fields SubConditional.mk
    (.cons (position.field_reads true) <| .cons hcondition.required <|
      .cons (allOfJson?_reads hinstructions).required <| .nil _)
    ["position", "condition", "execution"] rfl (by decide) fun room json slot h => ?_
  rw [branchOfJson?, h]
  rfl

end Constructors

mutual

theorem reads (enclosed : Bool) : ∀ e : Expression, Reads (ofJson? enclosed) e.shape e
  | .blockConditional _ condition execution subConditionals alternative =>
    blockConditional_reads (reads true condition) (readsAll execution) (readsBranches subConditionals)
      (readsAll alternative)
  | .label _ _ resolution => label_reads (reads true resolution)
  | .inlineConditional _ condition execution =>
    inlineConditional_reads (reads true condition) (reads true execution)
  | .parenthetical _ execution next => parenthetical_reads (reads true execution) (readsNext next)
  | .capture _ execution next => capture_reads (reads true execution) (readsNext next)
  | .reference _ _ next => reference_reads (readsNext next)
  | .operator _ _ next => operator_reads (readsNext next)
  | .literal _ _ => literal_reads

theorem readsAll : ∀ es : List Expression, ∀ e ∈ es, Reads (ofJson? true) e.shape e
  | [] => nofun
  | e :: rest => List.forall_mem_cons.mpr ⟨reads true e, readsAll rest⟩

theorem readsBranches : ∀ branches : List SubConditional,
    ∀ branch ∈ branches, Reads branchOfJson? (branchShape branch) branch
  | [] => nofun
  | .mk _ condition execution :: rest =>
    List.forall_mem_cons.mpr
      ⟨branch_reads (reads true condition) (readsAll execution), readsBranches rest⟩

theorem readsNext : ∀ next : Option Expression, ∀ e ∈ next, Reads (ofJson? true) e.shape e
  | none => nofun
  | some e => fun _ he => Option.some.inj he ▸ reads true e

end

end Expression

/-! ## Declarations -/

theorem Input.reads (input : Input) (enclosed : Bool) : Reads (decode enclosed) input.shape input := by
  have htype : Reads (decode enclosed) input.type.shape input.type := input.type.reads enclosed
  refine RecordReads.reads (fun _ => rfl) ?_
  refine .of_fields Input.mk
    (.cons (input.position.field_reads enclosed) <| .cons htype.required <|
      .cons (String.reads input.name enclosed).required <| .nil _)
    ["position", "type", "name"] rfl (by decide) fun room json slot h => ?_
  unfold Input.instInterchange
  dsimp only
  rw [h]
  rfl

theorem StructDecl.reads (s : StructDecl) (enclosed : Bool) : Reads (decode enclosed) s.shape s := by
  have hfields : Reads (decode enclosed) (.list (s.fields.map Input.shape)) s.fields :=
    list_reads fun input _ => input.reads enclosed
  refine RecordReads.reads (fun _ => rfl) ?_
  refine .of_fields StructDecl.mk
    (.cons (s.position.field_reads enclosed) <| .cons (String.reads s.name enclosed).required <|
      .cons (listField_reads hfields) <| .nil _)
    ["position", "name", "fields"] rfl (by decide) fun room json slot h => ?_
  unfold StructDecl.instInterchange
  dsimp only
  rw [h]
  rfl

theorem Pattern.reads (p : Pattern) (enclosed : Bool) : Reads (decode enclosed) p.shape p := by
  have hdefinition : Reads (decode enclosed) p.definition.shape p.definition :=
    p.definition.reads enclosed
  refine RecordReads.reads (fun _ => rfl) ?_
  refine .of_fields Pattern.mk
    (.cons (p.position.field_reads enclosed) <| .cons (String.reads p.name enclosed).required <|
      .cons (listField_reads (strings_reads p.params enclosed)) <| .cons hdefinition.required <| .nil _)
    ["position", "name", "params", "definition"] rfl (by decide) fun room json slot h => ?_
  unfold Pattern.instInterchange
  dsimp only
  rw [h]
  rfl

theorem Import.reads (i : Import) (enclosed : Bool) : Reads (decode enclosed) i.shape i := by
  cases i with
  | single position name =>
    exact variant_reads (fun _ => rfl) (fun _ _ => rfl) (fun _ => rfl) (by simp)
      (readNode_reads (String.reads name true) (by decide))
  | list position names =>
    exact variant_reads (fun _ => rfl) (fun _ _ => rfl) (fun _ => rfl) (by simp)
      (readNode_reads (strings_reads names true) (by decide))

theorem Body.reads (b : Body) (enclosed : Bool) : Reads (decode enclosed) b.shape b := by
  cases b with
  | constexpr position expressions =>
    have hexpressions := list_reads fun e (_ : e ∈ expressions) => e.reads true
    exact variant_reads (fun _ => rfl) (fun _ _ => rfl) (fun _ => rfl) (by simp)
      (readNode_reads hexpressions (by decide))
  | block position instructions =>
    have hinstructions := list_reads fun e (_ : e ∈ instructions) => e.reads true
    exact variant_reads (fun _ => rfl) (fun _ _ => rfl) (fun _ => rfl) (by simp)
      (readNode_reads hinstructions (by decide))
  | pattern position patterns =>
    have hpatterns := list_reads fun p (_ : p ∈ patterns) => p.reads true
    exact variant_reads (fun _ => rfl) (fun _ _ => rfl) (fun _ => rfl) (by simp)
      (readNode_reads hpatterns (by decide))

theorem FunctionName.reads {f : FunctionName} (hcaptured : f.IsCaptured) (enclosed : Bool) :
    Reads (decode enclosed) f.shape f := by
  refine leaf_reads fun room => ?_
  have hname : decode enclosed room (encode f) = some (capture f.name) := rfl
  rwa [← hcaptured] at hname

theorem FunctionDecl.reads {f : FunctionDecl} (hcaptured : f.IsCaptured) (enclosed : Bool) :
    Reads (decode enclosed) f.shape f := by
  have hreturn : ∀ t ∈ f.returnType, Reads (decode enclosed) t.shape t ∧ t.shape ≠ .leaf .null :=
    fun t _ => ⟨t.reads enclosed, by cases t; exact nofun⟩
  have hinputs : Reads (decode enclosed) (.list (f.inputs.map Input.shape)) f.inputs :=
    list_reads fun input _ => input.reads enclosed
  refine RecordReads.reads (fun _ => rfl) ?_
  refine .of_fields FunctionDecl.mk
    (.cons (f.position.field_reads enclosed) <|
      .cons (nullableOrElse_reads fun text _ => ⟨String.reads text enclosed, nofun⟩) <|
      .cons (nullableOrElse_reads hreturn) <| .cons (FunctionName.reads hcaptured enclosed).required <|
      .cons (listField_reads hinputs) <| .cons (f.body.reads enclosed).required <| .nil _)
    ["position", "annotation", "return_type", "name", "inputs", "definition"] rfl (by decide)
    fun room json slot h => ?_
  unfold FunctionDecl.instInterchange
  dsimp only
  rw [h]
  rfl

/-! ## Modules and data files -/

theorem Part.reads {part : Part} (hcaptured : part.IsCaptured) (enclosed : Bool) :
    Reads (decode enclosed) part.shape part := by
  cases part with
  | imports position items =>
    have hitems := list_reads fun i (_ : i ∈ items) => i.reads true
    exact variant_reads (fun _ => rfl) (fun _ _ => rfl) (fun _ => rfl) (by simp)
      (readNode_reads hitems (by decide))
  | structs position items =>
    have hitems := list_reads fun s (_ : s ∈ items) => s.reads true
    exact variant_reads (fun _ => rfl) (fun _ _ => rfl) (fun _ => rfl) (by simp)
      (readNode_reads hitems (by decide))
  | functions position items =>
    have hitems := list_reads fun f (hf : f ∈ items) => FunctionDecl.reads (hcaptured f hf) true
    exact variant_reads (fun _ => rfl) (fun _ _ => rfl) (fun _ => rfl) (by simp)
      (readNode_reads hitems (by decide))

theorem Module.ofFields?_reads {m : Module} (hcaptured : m.IsCaptured) (enclosed : Bool) :
    RecordReads (ofFields? enclosed) m.fields m := by
  have hparts : Reads (decode enclosed) (.list (m.parts.map Part.shape)) m.parts :=
    list_reads fun part hpart => Part.reads (hcaptured part hpart) enclosed
  refine .of_fields Module.mk
    (.cons (m.position.field_reads enclosed) <| .cons (listField_reads hparts) <| .nil _)
    ["position", "parts"] rfl (by decide) fun room json slot h => ?_
  rw [ofFields?, h]
  rfl

theorem Module.reads {m : Module} (hcaptured : m.IsCaptured) (enclosed : Bool) :
    Reads (decode enclosed) m.shape m :=
  RecordReads.reads (fun _ => rfl) (ofFields?_reads hcaptured enclosed)

theorem Assignment.reads (a : Assignment) (enclosed : Bool) : Reads (decode enclosed) a.shape a := by
  have hvalue : Reads (decode enclosed) a.value.shape a.value := a.value.reads enclosed
  refine RecordReads.reads (fun _ => rfl) ?_
  refine .of_fields Assignment.mk
    (.cons (a.position.field_reads enclosed) <| .cons (String.reads a.firstName enclosed).required <|
      .cons (nullableOrElse_reads fun text _ => ⟨String.reads text enclosed, nofun⟩) <|
      .cons hvalue.required <| .nil _)
    ["position", "first_name", "second_name", "value"] rfl (by decide) fun room json slot h => ?_
  unfold Assignment.instInterchange
  dsimp only
  rw [h]
  rfl

theorem Configuration.ofFields?_reads (c : Configuration) (enclosed : Bool) :
    RecordReads (ofFields? enclosed) c.fields c := by
  have hassignments : Reads (decode enclosed) (.list (c.assignments.map Assignment.shape)) c.assignments :=
    list_reads fun a _ => a.reads enclosed
  refine .of_fields Configuration.mk
    (.cons (c.position.field_reads enclosed) <| .cons (listField_reads hassignments) <| .nil _)
    ["position", "assignments"] rfl (by decide) fun room json slot h => ?_
  rw [ofFields?, h]
  rfl

theorem Configuration.reads (c : Configuration) (enclosed : Bool) : Reads (decode enclosed) c.shape c :=
  RecordReads.reads (fun _ => rfl) (c.ofFields?_reads enclosed)

theorem SourceTree.reads {t : SourceTree} (hcaptured : t.IsCaptured) (enclosed : Bool) :
    Reads (decode enclosed) t.shape t := by
  cases t with
  | module m =>
    exact variant_reads (fun _ => rfl) (fun _ _ => rfl) (fun _ => rfl) (by simp [Module.fields])
      ((Module.ofFields?_reads hcaptured true).map module)
  | configuration c =>
    exact variant_reads (fun _ => rfl) (fun _ _ => rfl) (fun _ => rfl) (by simp [Configuration.fields])
      ((c.ofFields?_reads true).map configuration)

/-! ## The result -/

/-- What the format of a type tolerates in the JSON that its values are written as, and what not. -/
structure Tolerates {α : Type} (write : α → Json) (read : Bool → Nat → Json → Option α)
    (shape : α → Shape) (captured : α → Prop) : Prop where
  toJson_shape : ∀ a, (shape a).toJson = write a
  /-- After any number of harmless changes, in any of the records, the value is still read. -/
  read_eq_some : ∀ a, captured a → ∀ json,
    Relation.ReflTransGen ((shape a).Edit Harmless) (write a) json →
    ∀ enclosed room, json.depth ≤ room → read enclosed room json = some a
  /-- When one of the records has lost a field that it needs, nothing is read. -/
  read_eq_none : ∀ a, captured a → ∀ json json',
    Relation.ReflTransGen ((shape a).Edit Harmless) (write a) json → (shape a).Edit Harmful json json' →
    ∀ enclosed room, read enclosed room json' = none

/-- A reader tolerates what it does because it follows the shapes of the values. -/
theorem Tolerates.of_reads {α : Type} {write : α → Json} {read : Bool → Nat → Json → Option α}
    {shape : α → Shape} {captured : α → Prop} (hshape : ∀ a, (shape a).toJson = write a)
    (hreadable : ∀ a, (write a).isReadable = true)
    (hreads : ∀ a, captured a → ∀ enclosed, Reads (read enclosed) (shape a) a) :
    Tolerates write read shape captured where
  toJson_shape := hshape
  read_eq_some a hcaptured json hrun enclosed room hdepth := by
    have hreads := hreads a hcaptured enclosed
    have hadmits : (shape a).Admits json := .of_run hrun (hshape a ▸ hreads.admits)
    exact hreads.read_eq_some room json hadmits hdepth (Shape.isReadable_of_run hrun (hreadable a))
  read_eq_none a hcaptured json json' hrun hloss enclosed room := by
    have hreads := hreads a hcaptured enclosed
    have hadmits : (shape a).Admits json := .of_run hrun (hshape a ▸ hreads.admits)
    exact hreads.read_eq_none room json json' hadmits hloss

theorem ReadsBack.tolerates {α : Type} [Interchange α] {shape : α → Shape} {captured : α → Prop}
    (law : ReadsBack α captured) (hshape : ∀ a, (shape a).toJson = encode a)
    (hreads : ∀ a, captured a → ∀ enclosed, Reads (decode enclosed) (shape a) a) :
    Tolerates encode decode shape captured :=
  .of_reads hshape law.isReadable_encode hreads

theorem branches_tolerates :
    Tolerates (fun branches => .array (Expression.branchesToJson branches))
      (fun _ => Expression.branchesOfJson?) (fun branches => .list (Expression.branchShapes branches))
      fun _ => True :=
  .of_reads (fun branches => congrArg Json.array (Expression.itemsToJson_branchShapes branches))
    (fun branches => Json.isReadable_array.mpr (Expression.isReadable_branchesToJson branches))
    fun branches _ _ => Expression.branchesOfJson?_reads (Expression.readsBranches branches)

/-- **The format of syntax trees is tolerant and strict.** Take a value whose names of functions have the
flag of their text, and its JSON. Put the fields of any of its records in another order, add fields that
the record does not know, leave out fields that hold their default, and all this any number of times: what
is read is the value. But take the tag or a field without default out of one record, and nothing is. -/
theorem grammar_tolerates :
    Tolerates encode decode SourceTree.shape SourceTree.IsCaptured ∧
    Tolerates encode decode Module.shape Module.IsCaptured ∧
    Tolerates encode decode Part.shape Part.IsCaptured ∧
    Tolerates encode decode Import.shape (fun _ => True) ∧
    Tolerates encode decode StructDecl.shape (fun _ => True) ∧
    Tolerates encode decode FunctionDecl.shape FunctionDecl.IsCaptured ∧
    Tolerates encode decode FunctionName.shape FunctionName.IsCaptured ∧
    Tolerates encode decode TypeExpr.shape (fun _ => True) ∧
    Tolerates encode decode Input.shape (fun _ => True) ∧
    Tolerates encode decode Body.shape (fun _ => True) ∧
    Tolerates encode decode Pattern.shape (fun _ => True) ∧
    Tolerates encode decode Expression.shape (fun _ => True) ∧
    Tolerates (fun branches => .array (Expression.branchesToJson branches))
      (fun _ => Expression.branchesOfJson?) (fun branches => .list (Expression.branchShapes branches))
      (fun _ => True) ∧
    Tolerates encode decode Value.shape (fun _ => True) ∧
    Tolerates encode decode Configuration.shape (fun _ => True) ∧
    Tolerates encode decode Assignment.shape (fun _ => True) ∧
    Tolerates encode decode Position.shape (fun _ => True) := by
  refine ⟨SourceTree.readsBack.tolerates SourceTree.toJson_shape fun _ => SourceTree.reads,
    Module.readsBack.tolerates Module.toJson_shape fun _ => Module.reads,
    Part.readsBack.tolerates Part.toJson_shape fun _ => Part.reads,
    Import.readsBack.tolerates Import.toJson_shape fun i _ => i.reads,
    StructDecl.readsBack.tolerates StructDecl.toJson_shape fun s _ => s.reads,
    FunctionDecl.readsBack.tolerates FunctionDecl.toJson_shape fun _ => FunctionDecl.reads,
    FunctionName.readsBack.tolerates (fun _ => rfl) fun _ => FunctionName.reads, ?_⟩
  exact ⟨TypeExpr.readsBack.tolerates TypeExpr.toJson_shape fun t _ enclosed => t.reads enclosed,
    Input.readsBack.tolerates Input.toJson_shape fun input _ => input.reads,
    Body.readsBack.tolerates Body.toJson_shape fun b _ => b.reads,
    Pattern.readsBack.tolerates Pattern.toJson_shape fun p _ => p.reads,
    Expression.readsBack.tolerates Expression.toJson_shape fun e _ enclosed => e.reads enclosed,
    branches_tolerates,
    Value.readsBack.tolerates Value.toJson_shape fun v _ enclosed => v.reads enclosed,
    Configuration.readsBack.tolerates Configuration.toJson_shape fun c _ => c.reads,
    Assignment.readsBack.tolerates Assignment.toJson_shape fun a _ => a.reads,
    Position.readsBack.tolerates Position.toJson_shape fun p _ => p.reads⟩

/-- A position in another order, with a field more, and without its defaults. -/
example : decode false 1 (.object [("line", .ofNat 3), ("note", .null), ("filename", .string "f")]) =
    some ({ filename := "f", line := 3 } : Position) := by
  decide

end FrontEnd
