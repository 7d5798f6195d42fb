import FrontEnd.Proofs.Syntax.Expression
import FrontEnd.Syntax.CharLiteral
import FrontEnd.Syntax.SourceTree

/-! # Source files are read back

The name of a function travels as a plain text, and whether it is an operator sign is found out again when
it is read. So only a tree whose names have the flag of their text can come back; names that were captured
or read have it. With that condition carried up from the declarations, the law goes from the fields of a
record to the record, and from the declarations to the source file.
-/

namespace FrontEnd

/-! ## Names of functions -/

namespace FunctionName

/-- Whether a name has the flag that its text gives it. -/
def IsCaptured (f : FunctionName) : Prop := f = capture f.name

theorem isCaptured_capture (text : String) : (capture text).IsCaptured := rfl

theorem readsBack : ReadsBack FunctionName IsCaptured where
  decode_encode f hcaptured enclosed room _ := by
    have hname : decode enclosed room (encode f) = some (capture f.name) := rfl
    rw [hname, ← hcaptured]
  captured_of_decode enclosed room json f h := by
    obtain ⟨text, -, rfl⟩ := Option.map_eq_some_iff.mp h
    exact isCaptured_capture text
  isReadable_encode _ := rfl
  encode_ne_null _ := nofun

/-- A name with the flag of another text comes back with its own. -/
example : decode false 0 (encode (FunctionName.mk "<=>" false)) = some (FunctionName.mk "<=>" true) := by
  decide

end FunctionName

/-- Whether the name of a function has the flag that its text gives it. -/
def FunctionDecl.IsCaptured (f : FunctionDecl) : Prop := f.name.IsCaptured

/-- Whether all names of functions in a part have the flag that their text gives them. -/
def Part.IsCaptured : Part → Prop
  | .imports .. => True
  | .structs .. => True
  | .functions _ items => ∀ f ∈ items, f.IsCaptured

/-- Whether all names of functions in a module have the flag that their text gives them. -/
def Module.IsCaptured (m : Module) : Prop := ∀ part ∈ m.parts, part.IsCaptured

/-- Whether all names of functions in a source file have the flag that their text gives them. -/
def SourceTree.IsCaptured : SourceTree → Prop
  | .module m => m.IsCaptured
  | .configuration _ => True

/-! ## Declarations -/

theorem Input.readsBack : ReadsBack Input fun _ => True where
  decode_encode input _ enclosed room hroom := by
    obtain ⟨inner, rfl, hinner⟩ := Json.exists_room_of_object hroom
    simp only [List.forall_mem_cons] at hinner
    obtain ⟨hposition, htype, -⟩ := hinner
    unfold Input.instInterchange
    dsimp only
    simp [Json.slots?_object, Position.decode_encode hposition,
      TypeExpr.readsBack.decode_encode input.type trivial enclosed inner htype]
  captured_of_decode _ _ _ _ _ := trivial
  isReadable_encode input := by
    refine Json.isReadable_object.mpr ?_
    simp [Position.readsBack.isReadable_encode, TypeExpr.readsBack.isReadable_encode,
      String.readsBack.isReadable_encode]
  encode_ne_null _ := nofun

theorem StructDecl.readsBack : ReadsBack StructDecl fun _ => True where
  decode_encode s _ enclosed room hroom := by
    obtain ⟨inner, rfl, hinner⟩ := Json.exists_room_of_object hroom
    simp only [List.forall_mem_cons] at hinner
    obtain ⟨hposition, -, hfields, -⟩ := hinner
    unfold StructDecl.instInterchange
    dsimp only
    simp [Json.slots?_object, Position.decode_encode hposition,
      Input.readsBack.list.decode_encode s.fields (by simp) enclosed inner hfields]
  captured_of_decode _ _ _ _ _ := trivial
  isReadable_encode s := by
    refine Json.isReadable_object.mpr ?_
    simp [Position.readsBack.isReadable_encode, String.readsBack.isReadable_encode,
      Input.readsBack.list.isReadable_encode]
  encode_ne_null _ := nofun

theorem Pattern.readsBack : ReadsBack Pattern fun _ => True where
  decode_encode p _ enclosed room hroom := by
    obtain ⟨inner, rfl, hinner⟩ := Json.exists_room_of_object hroom
    simp only [List.forall_mem_cons] at hinner
    obtain ⟨hposition, -, hparams, hdefinition, -⟩ := hinner
    unfold Pattern.instInterchange
    dsimp only
    simp [Json.slots?_object, Position.decode_encode hposition,
      String.readsBack.list.decode_encode p.params (by simp) enclosed inner hparams,
      Expression.readsBack.decode_encode p.definition trivial enclosed inner hdefinition]
  captured_of_decode _ _ _ _ _ := trivial
  isReadable_encode p := by
    refine Json.isReadable_object.mpr ?_
    simp [Position.readsBack.isReadable_encode, String.readsBack.isReadable_encode,
      String.readsBack.list.isReadable_encode, Expression.readsBack.isReadable_encode]
  encode_ne_null _ := nofun

theorem Import.readsBack : ReadsBack Import fun _ => True where
  decode_encode i _ enclosed room hroom := by
    cases i with
    | single position name =>
      obtain ⟨inner, rfl, -⟩ := Json.exists_room_of_tagged hroom
      exact String.readsBack.variant?_node rfl (by simp) trivial hroom
    | list position names =>
      obtain ⟨inner, rfl, -⟩ := Json.exists_room_of_tagged hroom
      exact String.readsBack.list.variant?_node rfl (by simp) (by simp) hroom
  captured_of_decode _ _ _ _ _ := trivial
  isReadable_encode i := by
    cases i with
    | single position name => exact String.readsBack.isReadable_node "kind" "Single" "name" position name
    | list position names =>
      exact String.readsBack.list.isReadable_node "kind" "List" "names" position names
  encode_ne_null i := by
    cases i <;> exact nofun

theorem Body.readsBack : ReadsBack Body fun _ => True where
  decode_encode b _ enclosed room hroom := by
    cases b with
    | constexpr position expressions =>
      obtain ⟨inner, rfl, -⟩ := Json.exists_room_of_tagged hroom
      exact Expression.readsBack.list.variant?_node rfl (by simp) (by simp) hroom
    | block position instructions =>
      obtain ⟨inner, rfl, -⟩ := Json.exists_room_of_tagged hroom
      exact Expression.readsBack.list.variant?_node rfl (by simp) (by simp) hroom
    | pattern position patterns =>
      obtain ⟨inner, rfl, -⟩ := Json.exists_room_of_tagged hroom
      exact Pattern.readsBack.list.variant?_node rfl (by simp) (by simp) hroom
  captured_of_decode _ _ _ _ _ := trivial
  isReadable_encode b := by
    cases b with
    | constexpr position expressions =>
      exact Expression.readsBack.list.isReadable_node "kind" "Constexpr" "expressions" position expressions
    | block position instructions =>
      exact Expression.readsBack.list.isReadable_node "kind" "Block" "instructions" position instructions
    | pattern position patterns =>
      exact Pattern.readsBack.list.isReadable_node "kind" "Pattern" "patterns" position patterns
  encode_ne_null b := by
    cases b <;> exact nofun

theorem FunctionDecl.readsBack : ReadsBack FunctionDecl FunctionDecl.IsCaptured where
  decode_encode f hcaptured enclosed room hroom := by
    obtain ⟨inner, rfl, hinner⟩ := Json.exists_room_of_object hroom
    simp only [List.forall_mem_cons] at hinner
    obtain ⟨hposition, hannotation, hreturn, hname, hinputs, hbody, -⟩ := hinner
    unfold FunctionDecl.instInterchange
    dsimp only
    simp [Json.slots?_object, Position.decode_encode hposition,
      String.readsBack.nullableOrElse_encodeOption (by simp) hannotation,
      TypeExpr.readsBack.nullableOrElse_encodeOption (by simp) hreturn,
      FunctionName.readsBack.decode_encode f.name hcaptured enclosed inner hname,
      Input.readsBack.list.decode_encode f.inputs (by simp) enclosed inner hinputs,
      Body.readsBack.decode_encode f.body trivial enclosed inner hbody]
  captured_of_decode enclosed room json f h := by
    cases room with
    | zero => cases h
    | succ room =>
      unfold FunctionDecl.instInterchange at h
      dsimp only at h
      split at h
      · simp only [bind, Option.bind_eq_some_iff] at h
        obtain ⟨position, -, annotation, -, returnType, -, name, hname, inputs, -, body, -, h⟩ := h
        obtain rfl := Option.some.inj h
        exact FunctionName.readsBack.captured_of_required hname
      · cases h
  isReadable_encode f := by
    refine Json.isReadable_object.mpr ?_
    simp [Position.readsBack.isReadable_encode, String.readsBack.isReadable_encodeOption,
      TypeExpr.readsBack.isReadable_encodeOption, FunctionName.readsBack.isReadable_encode,
      Input.readsBack.list.isReadable_encode, Body.readsBack.isReadable_encode]
  encode_ne_null _ := nofun

/-! ## Modules -/

namespace Part

theorem decode_eq (enclosed : Bool) (room : Nat) (json : Json) :
    decode enclosed (room + 1) json = json.variant? enclosed (room + 1) "part" [
      ("Import", readNode imports "imports" room), ("Struct", readNode structs "structs" room),
      ("Function", readNode functions "functions" room)] := rfl

theorem isCaptured_of_decode {enclosed : Bool} {room : Nat} {json : Json} {part : Part}
    (h : decode enclosed room json = some part) : part.IsCaptured := by
  cases room with
  | zero => cases h
  | succ room =>
    rw [decode_eq] at h
    obtain ⟨name, read, rest, hmem, h⟩ := Json.exists_choice_of_variant? h
    simp only [List.mem_cons, List.not_mem_nil, or_false, Prod.mk.injEq] at hmem
    obtain ⟨-, rfl⟩ | ⟨-, rfl⟩ | ⟨-, rfl⟩ := hmem
    · obtain ⟨position, items, rfl, -⟩ := Import.readsBack.list.captured_of_readNode h
      exact trivial
    · obtain ⟨position, items, rfl, -⟩ := StructDecl.readsBack.list.captured_of_readNode h
      exact trivial
    · obtain ⟨position, items, rfl, hitems⟩ := FunctionDecl.readsBack.list.captured_of_readNode h
      exact hitems

theorem readsBack : ReadsBack Part IsCaptured where
  decode_encode part hcaptured enclosed room hroom := by
    cases part with
    | imports position items =>
      obtain ⟨inner, rfl, -⟩ := Json.exists_room_of_tagged hroom
      exact Import.readsBack.list.variant?_node rfl (by simp) (by simp) hroom
    | structs position items =>
      obtain ⟨inner, rfl, -⟩ := Json.exists_room_of_tagged hroom
      exact StructDecl.readsBack.list.variant?_node rfl (by simp) (by simp) hroom
    | functions position items =>
      obtain ⟨inner, rfl, -⟩ := Json.exists_room_of_tagged hroom
      exact FunctionDecl.readsBack.list.variant?_node rfl (by simp) hcaptured hroom
  captured_of_decode _ _ _ _ := isCaptured_of_decode
  isReadable_encode part := by
    cases part with
    | imports position items =>
      exact Import.readsBack.list.isReadable_node "part" "Import" "imports" position items
    | structs position items =>
      exact StructDecl.readsBack.list.isReadable_node "part" "Struct" "structs" position items
    | functions position items =>
      exact FunctionDecl.readsBack.list.isReadable_node "part" "Function" "functions" position items
  encode_ne_null part := by
    cases part <;> exact nofun

end Part

namespace Module

theorem isReadable_toFields (m : Module) : ∀ field ∈ m.toFields, field.2.isReadable = true := by
  simp [toFields, Position.readsBack.isReadable_encode, Part.readsBack.list.isReadable_encode]

theorem ofFields?_toFields {m : Module} (hcaptured : m.IsCaptured) {enclosed : Bool} {room : Nat}
    (hroom : ∀ field ∈ m.toFields, field.2.depth ≤ room) :
    ofFields? enclosed room (.object m.toFields) = some m := by
  simp only [toFields, List.forall_mem_cons] at hroom
  obtain ⟨hposition, hparts, -⟩ := hroom
  simp [ofFields?, toFields, Json.slots?_object, Position.decode_encode hposition,
    Part.readsBack.list.decode_encode m.parts hcaptured enclosed room hparts]

theorem isCaptured_of_ofFields? {enclosed : Bool} {room : Nat} {json : Json} {m : Module}
    (h : ofFields? enclosed room json = some m) : m.IsCaptured := by
  rw [ofFields?] at h
  split at h
  · simp only [bind, Option.bind_eq_some_iff] at h
    obtain ⟨position, -, parts, hparts, h⟩ := h
    obtain rfl := Option.some.inj h
    exact Part.readsBack.list.captured_of_orElse (by simp) hparts
  · cases h

theorem readsBack : ReadsBack Module IsCaptured where
  decode_encode m hcaptured enclosed room hroom := by
    obtain ⟨inner, rfl, hinner⟩ := Json.exists_room_of_object hroom
    exact ofFields?_toFields hcaptured hinner
  captured_of_decode enclosed room json m h := by
    cases room with
    | zero => cases h
    | succ room => exact isCaptured_of_ofFields? h
  isReadable_encode m := Json.isReadable_object.mpr m.isReadable_toFields
  encode_ne_null _ := nofun

end Module

/-! ## Configurations -/

theorem Assignment.readsBack : ReadsBack Assignment fun _ => True where
  decode_encode a _ enclosed room hroom := by
    obtain ⟨inner, rfl, hinner⟩ := Json.exists_room_of_object hroom
    simp only [List.forall_mem_cons] at hinner
    obtain ⟨hposition, -, hsecond, hvalue, -⟩ := hinner
    unfold Assignment.instInterchange
    dsimp only
    simp [Json.slots?_object, Position.decode_encode hposition,
      String.readsBack.nullableOrElse_encodeOption (by simp) hsecond,
      Value.readsBack.decode_encode a.value trivial enclosed inner hvalue]
  captured_of_decode _ _ _ _ _ := trivial
  isReadable_encode a := by
    refine Json.isReadable_object.mpr ?_
    simp [Position.readsBack.isReadable_encode, String.readsBack.isReadable_encode,
      String.readsBack.isReadable_encodeOption, Value.readsBack.isReadable_encode]
  encode_ne_null _ := nofun

namespace Configuration

theorem isReadable_toFields (c : Configuration) : ∀ field ∈ c.toFields, field.2.isReadable = true := by
  simp [toFields, Position.readsBack.isReadable_encode, Assignment.readsBack.list.isReadable_encode]

theorem ofFields?_toFields (c : Configuration) {enclosed : Bool} {room : Nat}
    (hroom : ∀ field ∈ c.toFields, field.2.depth ≤ room) :
    ofFields? enclosed room (.object c.toFields) = some c := by
  simp only [toFields, List.forall_mem_cons] at hroom
  obtain ⟨hposition, hassignments, -⟩ := hroom
  simp [ofFields?, toFields, Json.slots?_object, Position.decode_encode hposition,
    Assignment.readsBack.list.decode_encode c.assignments (by simp) enclosed room hassignments]

theorem readsBack : ReadsBack Configuration fun _ => True where
  decode_encode c _ enclosed room hroom := by
    obtain ⟨inner, rfl, hinner⟩ := Json.exists_room_of_object hroom
    exact ofFields?_toFields c hinner
  captured_of_decode _ _ _ _ _ := trivial
  isReadable_encode c := Json.isReadable_object.mpr c.isReadable_toFields
  encode_ne_null _ := nofun

end Configuration

/-! ## Source files -/

namespace SourceTree

theorem isReadable_encode (t : SourceTree) : (encode t).isReadable = true := by
  cases t with
  | module m => exact Json.isReadable_tagged.mpr m.isReadable_toFields
  | configuration c => exact Json.isReadable_tagged.mpr c.isReadable_toFields

theorem decode_eq (enclosed : Bool) (room : Nat) (json : Json) :
    decode enclosed (room + 1) json = json.variant? enclosed (room + 1) "kind" [
      ("Module", fun body => (Module.ofFields? true room body).map module),
      ("Configuration", fun body => (Configuration.ofFields? true room body).map configuration)] := rfl

theorem isCaptured_of_decode {enclosed : Bool} {room : Nat} {json : Json} {t : SourceTree}
    (h : decode enclosed room json = some t) : t.IsCaptured := by
  cases room with
  | zero => cases h
  | succ room =>
    rw [decode_eq] at h
    obtain ⟨name, read, rest, hmem, h⟩ := Json.exists_choice_of_variant? h
    simp only [List.mem_cons, List.not_mem_nil, or_false, Prod.mk.injEq] at hmem
    obtain ⟨-, rfl⟩ | ⟨-, rfl⟩ := hmem
    · obtain ⟨m, hm, rfl⟩ := Option.map_eq_some_iff.mp h
      exact Module.isCaptured_of_ofFields? hm
    · obtain ⟨c, -, rfl⟩ := Option.map_eq_some_iff.mp h
      exact trivial

theorem readsBack : ReadsBack SourceTree IsCaptured where
  decode_encode t hcaptured enclosed room hroom := by
    have hreadable := t.isReadable_encode
    cases t with
    | module m =>
      obtain ⟨inner, rfl, hinner⟩ := Json.exists_room_of_tagged hroom
      have hread : (Module.ofFields? true inner (.object m.toFields)).map module = some (.module m) := by
        rw [Module.ofFields?_toFields hcaptured hinner, Option.map_some]
      exact (Json.variant?_tagged (by simp [Module.toFields]) hroom hreadable rfl).trans hread
    | configuration c =>
      obtain ⟨inner, rfl, hinner⟩ := Json.exists_room_of_tagged hroom
      have hread : (Configuration.ofFields? true inner (.object c.toFields)).map configuration =
          some (.configuration c) := by
        rw [c.ofFields?_toFields hinner, Option.map_some]
      exact (Json.variant?_tagged (by simp [Configuration.toFields]) hroom hreadable rfl).trans hread
  captured_of_decode _ _ _ _ := isCaptured_of_decode
  isReadable_encode := isReadable_encode
  encode_ne_null t := by
    cases t <;> exact nofun

end SourceTree

/-! ## Errors of character literals -/

theorem CharFault.find?_all (fault : CharFault) :
    (CharFault.all.find? fun other => other.name == fault.name) = some fault := by
  cases fault <;> rfl

namespace CharLiteralError

theorem readsBack : ReadsBack CharLiteralError fun _ => True where
  decode_encode e _ enclosed room hroom := by
    obtain ⟨outer, rfl, houter⟩ := Json.exists_room_of_object hroom
    obtain ⟨inner, rfl, hinner⟩ := Json.exists_room_of_object (houter _ List.mem_cons_self)
    simp only [List.forall_mem_cons] at hinner
    obtain ⟨-, hposition, -⟩ := hinner
    have hbody : decodeBody e.fault enclosed (inner + 1)
        (.object [("literal", encode e.literal), ("position", encode e.position)]) = some e := by
      simp [decodeBody, Json.slots?_object, Position.decode_encode hposition]
    unfold CharLiteralError.instInterchange
    dsimp only
    rw [CharFault.find?_all, Option.bind_some, hbody]
  captured_of_decode _ _ _ _ _ := trivial
  isReadable_encode e := by
    refine Json.isReadable_object.mpr ?_
    simp [Json.isReadable_object, Position.readsBack.isReadable_encode, String.readsBack.isReadable_encode]
  encode_ne_null _ := nofun

end CharLiteralError

/-! ## The round trip -/

/-- **The format of syntax trees loses nothing.** Whatever is written with names of functions that have
the flag of their text is read back as it was, at any size and depth that the reader has room for. All
that is ever read has such names, so what is written for it is a fixed point of reading and writing. -/
theorem grammar_roundTrips :
    RoundTrips SourceTree SourceTree.IsCaptured ∧ RoundTrips Module Module.IsCaptured ∧
    RoundTrips Part Part.IsCaptured ∧ RoundTrips FunctionDecl FunctionDecl.IsCaptured ∧
    RoundTrips FunctionName FunctionName.IsCaptured ∧
    (∀ text, (FunctionName.capture text).IsCaptured) ∧
    RoundTrips Import (fun _ => True) ∧ RoundTrips StructDecl (fun _ => True) ∧
    RoundTrips Body (fun _ => True) ∧ RoundTrips Pattern (fun _ => True) ∧
    RoundTrips Input (fun _ => True) ∧ RoundTrips TypeExpr (fun _ => True) ∧
    RoundTrips Expression (fun _ => True) ∧ RoundTrips Value (fun _ => True) ∧
    RoundTrips Configuration (fun _ => True) ∧ RoundTrips Assignment (fun _ => True) ∧
    RoundTrips Position (fun _ => True) ∧ RoundTrips CharLiteralError (fun _ => True) := by
  refine ⟨SourceTree.readsBack.roundTrips, Module.readsBack.roundTrips, Part.readsBack.roundTrips,
    FunctionDecl.readsBack.roundTrips, FunctionName.readsBack.roundTrips,
    FunctionName.isCaptured_capture, ?_⟩
  exact ⟨Import.readsBack.roundTrips, StructDecl.readsBack.roundTrips, Body.readsBack.roundTrips,
    Pattern.readsBack.roundTrips, Input.readsBack.roundTrips, TypeExpr.readsBack.roundTrips,
    Expression.readsBack.roundTrips, Value.readsBack.roundTrips, Configuration.readsBack.roundTrips,
    Assignment.readsBack.roundTrips, Position.readsBack.roundTrips,
    CharLiteralError.readsBack.roundTrips⟩

end FrontEnd
