import FrontEnd.Diagnostic.Basic
import FrontEnd.Proofs.Json.ReadsBack
import FrontEnd.Proofs.Lowering.Document

/-!
# Lowered modules are read back

A declaration, a diagnostic and all that stands in them are read back from what they are written as: every
type has the law, from the plain ones up. The document of a lowered module holds a list of each and an object
with a location under each identifier. Its keys are read as numbers, so nothing of the module is lost
(`LoweredModule.document_loses_nothing`).
-/

namespace FrontEnd

/-! ## Readability -/

namespace Json

mutual

/-- What is printed as what it is can be read whole. -/
theorem isReadable_of_isPrintable : ∀ json : Json, json.isPrintable = true → json.isReadable = true
  | .null, _ => rfl
  | .bool _, _ => rfl
  | .number _, _ => rfl
  | .string _, _ => rfl
  | .array items, h => itemsReadable_of_itemsPrintable items h
  | .object fields, h => fieldsReadable_of_fieldsPrintable fields h

theorem itemsReadable_of_itemsPrintable :
    ∀ items : List Json, itemsPrintable items = true → itemsReadable items = true
  | [], _ => rfl
  | item :: rest, h => by
    rw [itemsPrintable, Bool.and_eq_true] at h
    rw [itemsReadable, isReadable_of_isPrintable item h.1, itemsReadable_of_itemsPrintable rest h.2]
    rfl

theorem fieldsReadable_of_fieldsPrintable :
    ∀ fields : List (String × Json), fieldsPrintable fields = true → fieldsReadable fields = true
  | [], _ => rfl
  | (_, value) :: rest, h => by
    rw [fieldsPrintable, Bool.and_eq_true] at h
    rw [fieldsReadable, isReadable_of_isPrintable value h.1, fieldsReadable_of_fieldsPrintable rest h.2]
    rfl

end

end Json

namespace ReadsBack

variable {α : Type} [Interchange α]

/-- The law of a type that is printed as what it is comes down to reading. -/
theorem of_printable (hprintable : Printable α)
    (hread : ∀ (a : α) (enclosed : Bool) (room : Nat), (encode a).depth ≤ room →
      decode enclosed room (encode a) = some a)
    (hnull : ∀ a : α, encode a ≠ .null) : ReadsBack α fun _ => True where
  decode_encode a _ := hread a
  captured_of_decode _ _ _ _ _ := trivial
  isReadable_encode a := Json.isReadable_of_isPrintable _ (hprintable a)
  encode_ne_null := hnull

/-- The law of a type that is written by the names of its values. -/
theorem of_names (name : α → String) {all : List α} (hencode : ∀ a, encode a = .string (name a))
    (hdecode : ∀ enclosed room json, decode enclosed room json
      = (json.choiceName? room).bind fun text => all.find? fun a => name a == text)
    (hfind : ∀ a, (all.find? fun b => name b == name a) = some a) : ReadsBack α fun _ => True where
  decode_encode a _ enclosed room _ := by
    rw [hencode, hdecode]
    exact hfind a
  captured_of_decode _ _ _ _ _ := trivial
  isReadable_encode a := by rw [hencode]; rfl
  encode_ne_null a := by rw [hencode]; exact nofun

/-- A field that may be null is written, and read back. -/
theorem nullable_encodeOption {captured : α → Prop} (law : ReadsBack α captured) {value : Option α}
    (hcaptured : ∀ a ∈ value, captured a) {enclosed : Bool} {room : Nat}
    (hroom : (encodeOption value).depth ≤ room) :
    (Json.Slot.given (encodeOption value)).nullable (decode enclosed room) = some value := by
  rw [← law.nullableOrElse_encodeOption hcaptured hroom]
  cases encodeOption value <;> rfl

end ReadsBack

/-! ## Plain values -/

theorem TypeId.readsBack : ReadsBack TypeId fun _ => True :=
  .of_names TypeId.name (fun _ => rfl) (fun _ _ _ => rfl) fun a => by cases a <;> rfl

theorem OpCode.readsBack : ReadsBack OpCode fun _ => True :=
  .of_names OpCode.name (fun _ => rfl) (fun _ _ _ => rfl) fun a => by cases a <;> rfl

theorem Level.readsBack : ReadsBack Level fun _ => True :=
  .of_names Level.word (fun _ => rfl) (fun _ _ _ => rfl) fun a => by cases a <;> rfl

theorem ImportName.readsBack : ReadsBack ImportName fun _ => True :=
  .of_printable ImportName.printable (fun _ _ _ _ => rfl) fun _ => nofun

/-! ## Types -/

namespace TypeRef

mutual

theorem ofJson?_toJson : ∀ (t : TypeRef) (enclosed : Bool) (room : Nat), t.toJson.depth ≤ room →
    ofJson? enclosed room t.toJson = some t
  | .mk name generics, enclosed, room, hroom => by
    obtain ⟨inner, rfl, hinner⟩ := Json.exists_room_of_object hroom
    simp only [List.forall_mem_cons] at hinner
    obtain ⟨-, hgenerics, -⟩ := hinner
    obtain ⟨least, rfl, hitems⟩ := Json.exists_room_of_array hgenerics
    rw [toJson, ofJson?]
    simp [Json.slots?_object, allOfJson?, mapM_ofJson?_allToJson generics enclosed least hitems]

theorem mapM_ofJson?_allToJson : ∀ (ts : List TypeRef) (enclosed : Bool) (room : Nat),
    (∀ item ∈ allToJson ts, item.depth ≤ room) →
    (allToJson ts).mapM (ofJson? enclosed room) = some ts
  | [], _, _, _ => rfl
  | t :: rest, enclosed, room, hroom => by
    rw [allToJson, List.forall_mem_cons] at hroom
    rw [allToJson, List.mapM_cons, ofJson?_toJson t enclosed room hroom.1,
      mapM_ofJson?_allToJson rest enclosed room hroom.2]
    rfl

end

theorem readsBack : ReadsBack TypeRef fun _ => True :=
  .of_printable TypeRef.printable ofJson?_toJson fun t => by
    cases t
    exact nofun

end TypeRef

/-! ## Records -/

theorem Parameter.readsBack : ReadsBack Parameter fun _ => True := by
  refine .of_printable Parameter.printable (fun p enclosed room hroom => ?_) fun _ => nofun
  obtain ⟨inner, rfl, hinner⟩ := Json.exists_room_of_object hroom
  simp only [List.forall_mem_cons] at hinner
  obtain ⟨-, htype, -⟩ := hinner
  unfold Parameter.instInterchange
  dsimp only
  simp [Json.slots?_object, TypeRef.readsBack.decode_encode p.type trivial enclosed inner htype]

theorem Instruction.readsBack : ReadsBack Instruction fun _ => True := by
  refine .of_printable Instruction.printable (fun i enclosed room hroom => ?_) fun _ => nofun
  obtain ⟨inner, rfl, hinner⟩ := Json.exists_room_of_object hroom
  simp only [List.forall_mem_cons] at hinner
  obtain ⟨htype, hop, hvalue, -⟩ := hinner
  unfold Instruction.instInterchange
  dsimp only
  simp [Json.slots?_object, TypeId.readsBack.decode_encode i.typeId trivial enclosed inner htype,
    OpCode.readsBack.decode_encode i.op trivial enclosed inner hop,
    String.readsBack.list.decode_encode i.value (by simp) enclosed inner hvalue]

theorem Definition.readsBack : ReadsBack Definition fun _ => True := by
  refine .of_printable Definition.printable (fun d enclosed room hroom => ?_) fun _ => nofun
  obtain ⟨inner, rfl, hinner⟩ := Json.exists_room_of_object hroom
  simp only [List.forall_mem_cons] at hinner
  obtain ⟨-, -, -, -, hexpressions, -⟩ := hinner
  unfold Definition.instInterchange
  dsimp only
  simp [Json.slots?_object,
    Instruction.readsBack.list.decode_encode d.expressions (by simp) enclosed inner hexpressions]

theorem Declaration.readsBack : ReadsBack Declaration fun _ => True := by
  refine .of_printable Declaration.printable (fun d enclosed room hroom => ?_) fun _ => nofun
  obtain ⟨inner, rfl, hinner⟩ := Json.exists_room_of_object hroom
  simp only [List.forall_mem_cons] at hinner
  obtain ⟨-, -, hinputs, hreturn, hdefinition, -⟩ := hinner
  unfold Declaration.instInterchange
  dsimp only
  simp [Json.slots?_object,
    Parameter.readsBack.list.decode_encode d.inputs (by simp) enclosed inner hinputs,
    TypeRef.readsBack.nullable_encodeOption (by simp) hreturn,
    Definition.readsBack.decode_encode d.definition trivial enclosed inner hdefinition]

theorem DataValue.printable : Printable DataValue := by
  intro v
  refine Json.isPrintable_object.mpr ?_
  simpa using ⟨String.printable v.typeId.name, String.printable v.text⟩

theorem DataValue.readsBack : ReadsBack DataValue fun _ => True := by
  refine .of_printable DataValue.printable (fun v enclosed room hroom => ?_) fun _ => nofun
  obtain ⟨inner, rfl, hinner⟩ := Json.exists_room_of_object hroom
  simp only [List.forall_mem_cons] at hinner
  obtain ⟨htype, -, -⟩ := hinner
  unfold DataValue.instInterchange
  dsimp only
  simp [Json.slots?_object, TypeId.readsBack.decode_encode v.typeId trivial enclosed inner htype]

/-- No location has a zero, so the reader takes every one. -/
theorem Location.readsBack : ReadsBack Location fun _ => True := by
  refine .of_printable Location.printable (fun l enclosed room hroom => ?_) fun _ => nofun
  obtain ⟨inner, rfl, -⟩ := Json.exists_room_of_object hroom
  unfold Location.instInterchange
  dsimp only
  simp [Json.slots?_object, l.line_ne_zero, l.column_ne_zero]

theorem Diagnostic.printable : Printable Diagnostic := by
  intro d
  refine Json.isPrintable_object.mpr ?_
  simpa using ⟨String.printable d.level.word, String.printable d.message,
    String.printable.option d.note, String.printable.option d.help, Location.printable.option d.location⟩

theorem Diagnostic.readsBack : ReadsBack Diagnostic fun _ => True := by
  refine .of_printable Diagnostic.printable (fun d enclosed room hroom => ?_) fun _ => nofun
  obtain ⟨inner, rfl, hinner⟩ := Json.exists_room_of_object hroom
  simp only [List.forall_mem_cons] at hinner
  obtain ⟨hlevel, -, hnote, hhelp, hlocation, -⟩ := hinner
  unfold Diagnostic.instInterchange
  dsimp only
  simp [Json.slots?_object, Level.readsBack.decode_encode d.level trivial enclosed inner hlevel,
    String.readsBack.nullable_encodeOption (by simp) hnote,
    String.readsBack.nullable_encodeOption (by simp) hhelp,
    Location.readsBack.nullable_encodeOption (by simp) hlocation]

/-! ## Documents -/

namespace Json

/-- The identifier that a key in decimal stands for. -/
def idOfKey? (key : String) : Option UInt64 := (number? key.toList).bind Number.toWord?

theorem idOfKey?_repr (id : UInt64) : idOfKey? id.toNat.repr = some id := by
  have hnumber : number? id.toNat.repr.toList = some (.ofWord id) := by
    rw [← number?_numberText (.ofWord id)]
    exact congrArg (fun text : String => number? text.toList) String.empty_append.symm
  rw [idOfKey?, hnumber, Option.bind_some, Number.toWord?_ofWord]

def asFields? : Json → Option (List (String × Json))
  | .object fields => some fields
  | _ => none

/-- The items under a name of a document, each read as a value of a type. -/
def itemsUnder? (α : Type) [Interchange α] (room : Nat) (name : String) (document : Json) :
    Option (List α) :=
  ((document.field? name).bind asItems?).bind fun items => items.mapM (decode false room)

/-- The symbols of a document: every key read as an identifier, and what stands under it as a location. -/
def symbols? (room : Nat) (document : Json) : Option (List (UInt64 × Location)) :=
  ((document.field? "symbols").bind asFields?).bind fun fields =>
    fields.mapM fun field => do
      return (← idOfKey? field.1, ← decode false room field.2)

theorem itemsUnder?_eq {α : Type} [Interchange α] (law : ReadsBack α fun _ => True) {name : String}
    {document : Json} {items : List α} (hfield : document.field? name = some (encode items)) {room : Nat}
    (hroom : (encode items).depth ≤ room) : document.itemsUnder? α room name = some items := by
  obtain ⟨inner, rfl, hitems⟩ := exists_room_of_array hroom
  rw [itemsUnder?, hfield]
  exact law.mapM_decode_encode (by simp) fun a ha =>
    Nat.le_succ_of_le (hitems _ (List.mem_map_of_mem ha))

end Json

namespace SymbolTable

/-- The table with some entries, the later ones in place of earlier ones with the same identifier. -/
def ofEntries (entries : List (UInt64 × Location)) : SymbolTable :=
  entries.foldl (fun t entry => t.insert entry.1 entry.2) .empty

theorem ofEntries_entries (t : SymbolTable) : ofEntries t.entries = t := by
  refine eq_of_find?_eq fun k => ?_
  have hextend : ofEntries t.entries = SymbolTable.empty.extend t := rfl
  have hempty : SymbolTable.empty.find? k = none := rfl
  rw [hextend, find?_extend, hempty, Option.or_none]

/-- Keys and values of the fields that entries are written as are read back. -/
theorem mapM_entryFields (entries : List (UInt64 × Location)) {room : Nat}
    (hroom : ∀ entry ∈ entries, (encode entry.2).depth ≤ room) :
    (entries.map fun entry => (entry.1.toNat.repr, encode entry.2)).mapM (fun field => do
        return (← Json.idOfKey? field.1, ← decode false room field.2))
      = some entries := by
  induction entries with
  | nil => rfl
  | cons entry rest ih =>
    rw [List.forall_mem_cons] at hroom
    rw [List.map_cons, List.mapM_cons, ih hroom.2, Json.idOfKey?_repr,
      Location.readsBack.decode_encode entry.2 trivial false room hroom.1]
    rfl

end SymbolTable

namespace LoweredModule

/-- The lowered module that a document stands for. -/
def ofJson? (room : Nat) (document : Json) : Option LoweredModule := do
  return {
    lowered := {
      imports := ← document.itemsUnder? ImportName room "imports"
      declarations := ← document.itemsUnder? Declaration room "references" }
    symbols := .ofEntries (← document.symbols? room) }

/-- What a document keeps of a lowered module. -/
structure KeptIn (l : LoweredModule) (document : Json) : Prop where
  imports : ∀ room, document.depth ≤ room →
    document.itemsUnder? ImportName room "imports" = some l.lowered.imports
  references : ∀ room, document.depth ≤ room →
    document.itemsUnder? Declaration room "references" = some l.lowered.declarations
  symbols : ∀ room, document.depth ≤ room → document.symbols? room = some l.symbols.entries
  /-- All together it is the whole module. -/
  whole : ∀ room, document.depth ≤ room → ofJson? room document = some l
  /-- Every identifier of the symbol table has one key, and no two have the same. -/
  keys : ∃ keys, document.symbolKeys? = some keys ∧ keys.Nodup ∧
    keys.mapM Json.idOfKey? = some (l.symbols.entries.map Prod.fst)

variable (l : LoweredModule)

theorem depth_fields {room : Nat} (hroom : l.toJson.depth ≤ room) :
    (encode l.lowered.imports).depth ≤ room ∧ (encode l.lowered.declarations).depth ≤ room ∧
      l.symbols.toJson.depth ≤ room := by
  obtain ⟨inner, rfl, hfields⟩ := Json.exists_room_of_object hroom
  simp only [List.forall_mem_cons] at hfields
  obtain ⟨himports, hdeclarations, hsymbols, -⟩ := hfields
  exact ⟨Nat.le_succ_of_le himports, Nat.le_succ_of_le hdeclarations, Nat.le_succ_of_le hsymbols⟩

theorem symbols?_toJson {room : Nat} (hroom : l.symbols.toJson.depth ≤ room) :
    l.toJson.symbols? room = some l.symbols.entries := by
  obtain ⟨inner, rfl, hfields⟩ := Json.exists_room_of_object hroom
  exact SymbolTable.mapM_entryFields l.symbols.entries fun entry hentry =>
    Nat.le_succ_of_le (hfields _ (List.mem_map_of_mem hentry))

/-- The document of a lowered module keeps all of it. -/
theorem keptIn_toJson : l.KeptIn l.toJson := by
  have himports : ∀ room, l.toJson.depth ≤ room →
      l.toJson.itemsUnder? ImportName room "imports" = some l.lowered.imports := fun room hroom =>
    Json.itemsUnder?_eq ImportName.readsBack rfl (l.depth_fields hroom).1
  have hreferences : ∀ room, l.toJson.depth ≤ room →
      l.toJson.itemsUnder? Declaration room "references" = some l.lowered.declarations :=
    fun room hroom => Json.itemsUnder?_eq Declaration.readsBack rfl (l.depth_fields hroom).2.1
  have hsymbols : ∀ room, l.toJson.depth ≤ room → l.toJson.symbols? room = some l.symbols.entries :=
    fun room hroom => l.symbols?_toJson (l.depth_fields hroom).2.2
  refine ⟨himports, hreferences, hsymbols, fun room hroom => ?_, ?_⟩
  · rw [ofJson?, himports room hroom, hreferences room hroom, hsymbols room hroom]
    exact congrArg (fun symbols => some (LoweredModule.mk l.lowered symbols)) l.symbols.ofEntries_entries
  · refine ⟨_, l.symbolKeys?_toJson, l.symbols.nodup_keys, ?_⟩
    have hid : ∀ entry : UInt64 × Location, Json.idOfKey? entry.1.toNat.repr = some entry.1 :=
      fun entry => Json.idOfKey?_repr entry.1
    rw [List.mapM_map]
    exact (congrArg (l.symbols.entries.mapM ·) (funext hid)).trans List.mapM_pure

/-- **The document of a lowered module loses nothing.** Its lists are read back item by item, and its symbols
with their keys read as identifiers, so the whole module comes back; each identifier has one key of its own.
A module that is lowered has the identifiers of its declarations for keys, and no others. All that stands in a
document is read back wherever it stands, and so are diagnostics. -/
theorem document_loses_nothing :
    (∀ l : LoweredModule, l.KeptIn l.toJson) ∧
    (∀ (m : Module) (file : String) (ids : IdSource) (l : LoweredModule),
      (m.lower file ids).module = .ok l → ∀ id, id ∈ l.symbols.entries.map Prod.fst ↔ id ∈ l.ids) ∧
    RoundTrips Declaration (fun _ => True) ∧ RoundTrips Parameter (fun _ => True) ∧
    RoundTrips TypeRef (fun _ => True) ∧ RoundTrips Definition (fun _ => True) ∧
    RoundTrips Instruction (fun _ => True) ∧ RoundTrips ImportName (fun _ => True) ∧
    RoundTrips DataValue (fun _ => True) ∧ RoundTrips Diagnostic (fun _ => True) ∧
    RoundTrips Location (fun _ => True) := by
  refine ⟨keptIn_toJson, fun _ _ _ _ h => Module.mem_symbols_iff h, ?_⟩
  exact ⟨Declaration.readsBack.roundTrips, Parameter.readsBack.roundTrips, TypeRef.readsBack.roundTrips,
    Definition.readsBack.roundTrips, Instruction.readsBack.roundTrips, ImportName.readsBack.roundTrips,
    DataValue.readsBack.roundTrips, Diagnostic.readsBack.roundTrips, Location.readsBack.roundTrips⟩

/-- A module with an import, an operator and a struct, numbered from 7. -/
theorem document_loses_nothing_sample :
    ∃ l, (Module.sample.lower "main" ⟨7⟩).module = .ok l ∧ l.ids = [7, 8] ∧ l.KeptIn l.toJson ∧
      ∀ id, id ∈ l.symbols.entries.map Prod.fst ↔ id ∈ [7, 8] :=
  ⟨_, rfl, rfl, document_loses_nothing.1 _, document_loses_nothing.2.1 Module.sample "main" ⟨7⟩ _ rfl⟩

end LoweredModule

end FrontEnd
