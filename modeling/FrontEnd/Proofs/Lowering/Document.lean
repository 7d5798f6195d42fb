import FrontEnd.Proofs.Json.Printed
import FrontEnd.Proofs.Lowering.Turn

/-!
# Documents of lowered modules

The JSON value of a lowered module, as somebody reads it who has nothing but the text. It is printed as what
it is (`isPrintable_toJson`), so the text gives the value back. The identifiers of its references and the names
under `symbols` can be read off it (`Json.referenceIds?`, `Json.symbolKeys?`), and the two agree
(`mem_symbolKeys_iff`).
-/

namespace FrontEnd

/-! ## Printable types -/

/-- Types whose values are printed as what they are. -/
def Printable (α : Type) [Interchange α] : Prop := ∀ a : α, (encode a).isPrintable = true

theorem String.printable : Printable String := fun _ => rfl

theorem Bool.printable : Printable Bool := fun _ => rfl

theorem UInt64.printable : Printable UInt64 := fun n => Json.inRange_integer false n.toNat_lt_size

section

variable {α : Type} [Interchange α]

theorem Printable.list (h : Printable α) : Printable (List α) := by
  intro items
  refine Json.isPrintable_array.mpr ?_
  simpa using fun a _ => h a

theorem Printable.option (h : Printable α) (value : Option α) :
    (encodeOption value).isPrintable = true := by
  cases value with
  | none => rfl
  | some a => exact h a

end

mutual

theorem TypeRef.isPrintable_toJson : ∀ t : TypeRef, t.toJson.isPrintable = true
  | .mk name generics => by
    rw [TypeRef.toJson, Json.isPrintable_object]
    simpa using ⟨String.printable name, TypeRef.isPrintable_allToJson generics⟩

theorem TypeRef.isPrintable_allToJson : ∀ ts : List TypeRef,
    (Json.array (TypeRef.allToJson ts)).isPrintable = true
  | [] => rfl
  | t :: rest => by
    have hrest := TypeRef.isPrintable_allToJson rest
    rw [Json.isPrintable_array] at hrest ⊢
    exact List.forall_mem_cons.mpr ⟨t.isPrintable_toJson, hrest⟩

end

theorem TypeRef.printable : Printable TypeRef := TypeRef.isPrintable_toJson

theorem ImportName.printable : Printable ImportName := fun n => String.printable n.name

theorem Parameter.printable : Printable Parameter := by
  intro p
  refine Json.isPrintable_object.mpr ?_
  simpa using ⟨String.printable p.name, TypeRef.printable p.type⟩

theorem Instruction.printable : Printable Instruction := by
  intro i
  refine Json.isPrintable_object.mpr ?_
  simpa using ⟨String.printable i.typeId.name, String.printable i.op.name,
    String.printable.list i.value⟩

theorem Definition.printable : Printable Definition := by
  intro d
  refine Json.isPrintable_object.mpr ?_
  simpa using ⟨Bool.printable d.isStruct, Bool.printable d.isFunction, Bool.printable d.isOperator,
    String.printable d.annotation, Instruction.printable.list d.expressions⟩

theorem Declaration.printable : Printable Declaration := by
  intro d
  refine Json.isPrintable_object.mpr ?_
  simpa using ⟨UInt64.printable d.id, String.printable d.name, Parameter.printable.list d.inputs,
    TypeRef.printable.option d.returnType, Definition.printable d.definition⟩

theorem Location.printable : Printable Location := by
  intro l
  refine Json.isPrintable_object.mpr ?_
  simpa using ⟨String.printable l.fileName, UInt64.printable l.line, UInt64.printable l.column⟩

theorem SymbolTable.isPrintable_toJson (t : SymbolTable) : t.toJson.isPrintable = true := by
  refine Json.isPrintable_object.mpr ?_
  intro field hfield
  obtain ⟨entry, -, rfl⟩ := List.mem_map.mp hfield
  exact Location.printable entry.2

theorem LoweredModule.isPrintable_toJson (m : LoweredModule) : m.toJson.isPrintable = true := by
  refine Json.isPrintable_object.mpr ?_
  simpa using ⟨ImportName.printable.list m.lowered.imports,
    Declaration.printable.list m.lowered.declarations, m.symbols.isPrintable_toJson⟩

/-! ## Reading a document -/

namespace Json

/-- The names of the fields of an object. -/
def fieldNames? : Json → Option (List String)
  | .object fields => some (fields.map Prod.fst)
  | _ => none

/-- The identifiers of the references of a document. -/
def referenceIds? (document : Json) : Option (List Nat) := do
  let references ← (document.field? "references").bind asItems?
  references.mapM fun reference => (reference.field? "unique_id").bind asNat?

/-- The keys of the symbols of a document. -/
def symbolKeys? (document : Json) : Option (List String) :=
  (document.field? "symbols").bind fieldNames?

end Json

namespace LoweredModule

variable (l : LoweredModule)

/-- The identifiers of the declarations of a lowered module. -/
def ids : List UInt64 := l.lowered.declarations.map Declaration.id

theorem referenceIds?_toJson : l.toJson.referenceIds? = some (l.ids.map UInt64.toNat) := by
  have hreferences : l.toJson.field? "references" = some (encode l.lowered.declarations) := rfl
  have hid : ∀ d : Declaration, ((encode d).field? "unique_id").bind Json.asNat? = some d.id.toNat :=
    fun _ => rfl
  rw [Json.referenceIds?, hreferences]
  show (l.lowered.declarations.map encode).mapM
    (fun reference => (reference.field? "unique_id").bind Json.asNat?) = _
  rw [List.mapM_map, ids, List.map_map]
  exact (congrArg (l.lowered.declarations.mapM ·) (funext hid)).trans List.mapM_pure

theorem symbolKeys?_toJson :
    l.toJson.symbolKeys? = some (l.symbols.entries.map fun entry => entry.1.toNat.repr) := by
  have hsymbols : l.toJson.field? "symbols" = some l.symbols.toJson := rfl
  rw [Json.symbolKeys?, hsymbols, Option.bind_some, SymbolTable.toJson, Json.fieldNames?, List.map_map]
  rfl

end LoweredModule

/-! ## Identifiers and symbols of a lowered module -/

namespace SymbolTable

/-- An identifier is bound by a table if and only if it is the key of an entry. -/
theorem isSome_find?_iff (t : SymbolTable) (id : UInt64) :
    (t.find? id).isSome ↔ id ∈ t.entries.map Prod.fst := by
  rw [find?, Option.isSome_iff_exists, List.mem_map]
  constructor
  · rintro ⟨location, h⟩
    exact ⟨(id, location), (lookup_eq_some_iff_mem t.sorted).mp h, rfl⟩
  · rintro ⟨entry, h, rfl⟩
    exact ⟨entry.2, (lookup_eq_some_iff_mem t.sorted).mpr h⟩

/-- No two identifiers have the same key. -/
theorem nodup_keys (t : SymbolTable) : (t.entries.map fun entry => entry.1.toNat.repr).Nodup := by
  refine List.pairwise_map.mpr (t.sorted.imp fun hlt heq => ?_)
  exact UInt64.ne_of_lt hlt (UInt64.toNat_inj.mp (Json.repr_inj heq))

/-- Recording binds the identifiers that it takes, and no others. -/
theorem isSome_find?_record_iff (t : SymbolTable) (ids : IdSource) (ls : List Location) (id : UInt64) :
    ((t.record ids ls).find? id).isSome
      ↔ id ∈ (List.range ls.length).map ids.nth ∨ (t.find? id).isSome := by
  induction ls generalizing t ids with
  | nil => simp [record]
  | cons l ls ih =>
    have hrange : (List.range (ls.length + 1)).map ids.nth
        = ids.next :: (List.range ls.length).map ids.advance.nth := by
      rw [List.range_succ_eq_map, List.map_cons, List.map_map, ids.nth_zero, ← ids.skip_one]
      simp [Function.comp_def, Nat.add_comm]
    rw [record, ih, find?_insert, List.length_cons, hrange, List.mem_cons]
    by_cases hid : id = ids.next
    · simp [hid]
    · simp [hid]

end SymbolTable

theorem LoweringRun.module_eq_ok_iff {run : LoweringRun} {l : LoweredModule} :
    run.module = .ok l ↔ run.result = .ok l.lowered ∧ run.symbols = l.symbols := by
  obtain ⟨ids, symbols, log, result⟩ := run
  cases result with
  | error e => simp [LoweringRun.module, Except.map]
  | ok lowered =>
    obtain ⟨lowered', symbols'⟩ := l
    simp [LoweringRun.module, Except.map]

namespace Module

variable {m : Module} {file : String} {ids : IdSource} {l : LoweredModule}

/-- A module that is lowered takes one identifier for each of its declarations. -/
theorem ids_of_module_eq_ok (h : (m.lower file ids).module = .ok l) :
    l.ids = (List.range m.declared.length).map ids.nth ∧
      (m.lower file ids).ids = ids.skip m.declared.length := by
  have hok := (LoweringRun.module_eq_ok_iff.mp h).1
  obtain ⟨hflaws, hids⟩ := Session.map_id_of_result m file ids .empty hok
  refine ⟨hids, ?_⟩
  rw [lower, ids_lowerInto, m.declaredBeforeFlaw_of_flaws_eq_nil hflaws]

/-- The symbols of a module that is lowered with a table of its own are those of its declarations. -/
theorem mem_symbols_iff (h : (m.lower file ids).module = .ok l) (id : UInt64) :
    id ∈ l.symbols.entries.map Prod.fst ↔ id ∈ l.ids := by
  obtain ⟨hok, hsymbols⟩ := LoweringRun.module_eq_ok_iff.mp h
  obtain ⟨hflaws, -⟩ := Session.map_id_of_result m file ids .empty hok
  obtain ⟨log, hrun⟩ := m.lowerInto_of_flaws_eq_nil file ids .empty hflaws
  have hfind : ∀ k, SymbolTable.find? .empty k = none := fun _ => rfl
  rw [← l.symbols.isSome_find?_iff, ← hsymbols, lower, hrun, SymbolTable.find?_extend, hfind,
    Option.or_none, SymbolTable.isSome_find?_record_iff, hfind, (ids_of_module_eq_ok h).1, List.length_map]
  simp

/-- **Symbols of a document.** Its keys are the identifiers of its references in decimal, each once. -/
theorem symbolKeys_of_module_eq_ok (h : (m.lower file ids).module = .ok l) :
    ∃ keys, l.toJson.symbolKeys? = some keys ∧ keys.Nodup ∧
      ∀ key, key ∈ keys ↔ key ∈ (l.ids.map UInt64.toNat).map Nat.repr := by
  refine ⟨_, l.symbolKeys?_toJson, l.symbols.nodup_keys, fun key => ?_⟩
  simp only [List.map_map, List.mem_map, Function.comp_apply, ← mem_symbols_iff h]
  simp

end Module

end FrontEnd
