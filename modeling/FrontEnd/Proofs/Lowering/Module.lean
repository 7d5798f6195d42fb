import FrontEnd.Proofs.Lowering.Progress

/-!
# Lowered modules

The two halves of what `Module.lowerInto` does. A module with a flaw is not lowered, and the error is that of
its first flaw (`lowerInto_error_iff_first_flaw`). A module that is lowered gives its imported names, one
declaration for each of its own with the identifiers in a row, and one location under each of these
identifiers (`loweredTo_of_ok`).
-/

namespace FrontEnd

namespace Module

variable (m : Module) (file : String) (ids : IdSource) (symbols : SymbolTable)

/-- The whole run over a module without flaws, but for its records. -/
theorem lowerInto_of_flaws_eq_nil (h : m.flaws = []) :
    ∃ log, m.lowerInto file ids symbols = {
      ids := ids.skip m.declared.length
      symbols := symbols.extend
        (SymbolTable.record .empty ids (m.declared.map (SourceDecl.locationIn file)))
      log
      result := .ok {
        imports := m.importedNames.map ImportName.mk
        declarations := m.declared.mapIdx fun k d => d.declaration (ids.nth k) } } := by
  have hitems : m.items.flatMap Item.flaws = [] := m.flatMap_flaws.trans h
  have hreach := Progress.reaches_walk file { ids } hitems
  have hnone : (Progress.walk file { ids } m.items).2 = none := by
    rw [Progress.walk_snd, hitems]
    rfl
  unfold lowerInto
  rw [show Progress.walk file { ids } m.items = (_, none) from Prod.ext rfl hnone]
  simp only [hreach.ids, hreach.imports, hreach.declarations, hreach.symbols,
    m.flatMap_importedNames, m.flatMap_declared, List.nil_append]
  exact ⟨_, rfl⟩

/-- A run that meets a flaw leaves the symbols as they were. -/
theorem lowerInto_of_flaws_eq_cons {flaw : Flaw} {rest : List Flaw} (h : m.flaws = flaw :: rest) :
    (m.lowerInto file ids symbols).result = .error flaw.error ∧
      (m.lowerInto file ids symbols).symbols = symbols := by
  have hsome : (Progress.walk file { ids } m.items).2 = some flaw.error := by
    rw [Progress.walk_snd, m.flatMap_flaws, h]
    rfl
  unfold lowerInto
  rw [show Progress.walk file { ids } m.items = (_, some flaw.error) from Prod.ext rfl hsome]
  exact ⟨rfl, rfl⟩

theorem lowerInto_result :
    (m.lowerInto file ids symbols).result = settle m.flaws {
      imports := m.importedNames.map ImportName.mk
      declarations := m.declared.mapIdx fun k d => d.declaration (ids.nth k) } := by
  cases hf : m.flaws with
  | nil =>
    obtain ⟨log, hrun⟩ := m.lowerInto_of_flaws_eq_nil file ids symbols hf
    rw [hrun]
    rfl
  | cons flaw rest => exact (m.lowerInto_of_flaws_eq_cons file ids symbols hf).1

/-! ## Failure -/

/-- **First flaw.** A module fails to be lowered if and only if it has a flaw, whatever the file, the
identifiers and the symbols, and the error is then the one of its first flaw. -/
theorem lowerInto_error_iff_first_flaw :
    ((∃ e, (m.lowerInto file ids symbols).result = .error e) ↔ m.flaws ≠ []) ∧
      ∀ e, (m.lowerInto file ids symbols).result = .error e ↔
        ∃ flaw, m.flaws.head? = some flaw ∧
          e = .malformed flaw.defect.what flaw.position flaw.defect.reason := by
  have hfirst : ∀ e, (m.lowerInto file ids symbols).result = .error e ↔
      ∃ flaw, m.flaws.head? = some flaw ∧ e = flaw.error := by
    intro e
    rw [m.lowerInto_result file ids symbols, settle_eq_error_iff]
  refine ⟨?_, hfirst⟩
  simp only [hfirst]
  cases m.flaws with
  | nil => simp
  | cons flaw rest => simp

/-! ## Success -/

/-- What a module gives when it is lowered: `l`, and a run that leaves the symbols and the source of
identifiers behind. -/
structure LoweredTo (l : Lowered) (run : LoweringRun) : Prop where
  /-- All imported names, in the order of the source and with repetitions. -/
  imports : l.imports.map ImportName.name = m.importedNames
  /-- One declaration for each struct and function, in the order of the source. -/
  declarations : l.declarations = m.declared.mapIdx fun k d => d.declaration (ids.nth k)
  /-- The identifiers count up from the next one of the source. -/
  identifiers : l.declarations.map (fun d => d.id.toNat)
    = List.range' ids.next.toNat m.declared.length
  /-- Each identifier is bound to the place of its declaration, with zeros raised to one. -/
  bound : ∀ (k : Nat) (d : SourceDecl) (lowered : Declaration),
    m.declared[k]? = some d → l.declarations[k]? = some lowered →
      ∃ location, run.symbols.find? lowered.id = some location ∧
        location.fileName = file ∧
        location.line = (if d.position.line = 0 then 1 else d.position.line) ∧
        location.column = (if d.position.column = 0 then 1 else d.position.column)
  /-- Every other identifier is bound as before. -/
  kept : ∀ id, id ∉ l.declarations.map Declaration.id →
    run.symbols.find? id = symbols.find? id
  /-- The source has given out as many identifiers as there are declarations. -/
  next : run.ids.next.toNat = ids.next.toNat + m.declared.length

theorem toNat_id_declarations (hroom : ids.next.toNat + m.declared.length < UInt64.size) :
    (m.declared.mapIdx fun k d => d.declaration (ids.nth k)).map (fun d => d.id.toNat)
      = List.range' ids.next.toNat m.declared.length := by
  apply List.ext_getElem
  · simp
  · intro k hk _
    rw [List.length_map, List.length_mapIdx] at hk
    simp only [List.getElem_map, List.getElem_mapIdx, SourceDecl.id_declaration,
      List.getElem_range', Nat.one_mul]
    exact IdSource.toNat_nth (Nat.lt_trans (Nat.add_lt_add_left hk _) hroom)

/-- **Lowering.** A module that is lowered gives its imports and its declarations, under identifiers in a row
and with a symbol for each of them. -/
theorem loweredTo_of_ok (l : Lowered) (hok : (m.lowerInto file ids symbols).result = .ok l)
    (hroom : ids.next.toNat + m.declared.length < UInt64.size) :
    m.LoweredTo file ids symbols l (m.lowerInto file ids symbols) := by
  rw [lowerInto_result, settle_eq_ok_iff] at hok
  obtain ⟨hflaws, rfl⟩ := hok
  obtain ⟨log, hrun⟩ := m.lowerInto_of_flaws_eq_nil file ids symbols hflaws
  have hids := m.toNat_id_declarations ids hroom
  have hlocations : ids.next.toNat + (m.declared.map (SourceDecl.locationIn file)).length < UInt64.size := by
    rwa [List.length_map]
  rw [hrun]
  refine ⟨?_, rfl, hids, ?_, ?_, IdSource.toNat_nth hroom⟩
  · show (m.importedNames.map ImportName.mk).map ImportName.name = m.importedNames
    rw [List.map_map]
    exact List.map_id _
  · intro k d lowered hd hl
    have hk : k < m.declared.length := (List.getElem?_eq_some_iff.mp hd).1
    obtain rfl : d.declaration (ids.nth k) = lowered := by
      simpa only [List.getElem?_mapIdx, hd, Option.map_some, Option.some.injEq] using hl
    refine ⟨d.locationIn file, ?_, rfl, rfl, rfl⟩
    rw [SourceDecl.id_declaration,
      SymbolTable.find?_extend_record_nth symbols hlocations (by rwa [List.length_map]),
      List.getElem?_map, hd, Option.map_some]
  · intro id hid
    apply SymbolTable.find?_extend_record_of_ne symbols hlocations
    rintro k hk rfl
    rw [List.length_map] at hk
    apply hid
    rw [List.mem_map]
    refine ⟨m.declared[k].declaration (ids.nth k), ?_, SourceDecl.id_declaration _ _⟩
    exact List.mem_mapIdx.mpr ⟨k, hk, rfl⟩

/-- An import with a repeated name, an operator and a struct, the struct without a line. -/
def sample : Module where
  parts := [
    .imports {} [.list {} ["io", "io"]],
    .functions {} [{
      position := { line := 4, column := 2 }
      annotation := some "inline"
      name := .capture "+"
      inputs := [{ type := .mk "List" [.mk "Int" []], name := "a" }]
      body := .constexpr {} [.reference {} ["a"] none] }],
    .structs {} [{ name := "Point", fields := [] }]]

/-- What `sample` is lowered to from the identifier 7 on. -/
def sampleLowered : Lowered where
  imports := [⟨"io"⟩, ⟨"io"⟩]
  declarations := [
    { id := 7, name := "+", returnType := none
      inputs := [{ name := "a", type := .mk "List" [.mk "Int" []] }]
      definition := { isFunction := true, isOperator := true, annotation := "inline" } },
    { id := 8, name := "Point", returnType := some (.mk "Point" []), inputs := []
      definition := { isStruct := true } }]

theorem loweredTo_sample :
    (sample.lowerInto "main" ⟨7⟩ (SymbolTable.insert .empty 8 (.ofCounts "old" 1 1))).result
        = .ok sampleLowered ∧
      7 + sample.declared.length < UInt64.size ∧
      sample.LoweredTo "main" ⟨7⟩ (SymbolTable.insert .empty 8 (.ofCounts "old" 1 1)) sampleLowered
        (sample.lowerInto "main" ⟨7⟩ (SymbolTable.insert .empty 8 (.ofCounts "old" 1 1))) :=
  ⟨by rfl, by decide, loweredTo_of_ok _ _ _ _ _ (by rfl) (by decide)⟩

end Module

end FrontEnd
