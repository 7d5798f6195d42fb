import FrontEnd.Proofs.Lowering.Stop
import Mathlib.Data.List.Basic

/-!
# The records of a lowering

`Module.sights` lists what the walk over a module comes upon: imported names, flaws, and declarations, each of
them behind its own flaws.

1. The flaws among it are those of the module, and the declarations in front of the first flaw are those that
   are given an identifier (`Module.filterMap_declaration?_beforeFlaw`).
2. An item leaves one record for each name and for each declaration in front of its first flaw, with the
   identifiers in a row (`Progress.log_step`), and so does a walk (`Progress.log_walk`). A run that comes to the
   end of its module leaves one more (`Module.lowerInto_log`).
3. So the records of one level or of one kind are told by the sights alone, which is what `Module.Accounts` puts
   together.
-/

namespace FrontEnd

/-! ## What is come upon -/

/-- What a walk comes upon. A declaration is come upon once all of it has been looked at. -/
inductive Sight where
  | name (text : String)
  | flaw (what : Flaw)
  | declaration (d : SourceDecl)

namespace Sight

def isFlaw : Sight → Bool
  | .flaw _ => true
  | _ => false

def name? : Sight → Option String
  | .name text => some text
  | _ => none

def flaw? : Sight → Option Flaw
  | .flaw what => some what
  | _ => none

def declaration? : Sight → Option SourceDecl
  | .declaration d => some d
  | _ => none

/-- An imported name, which is a flaw if it is empty. -/
def ofName (position : Position) (text : String) : Sight :=
  if text = "" then .flaw { defect := .emptyImportedName, position } else .name text

/-- A declaration behind its flaws. -/
def ofDeclaration (flaws : List Flaw) (d : SourceDecl) : List Sight :=
  flaws.map .flaw ++ [.declaration d]

/-- What is come upon in front of the first flaw. -/
def beforeFlaw (sights : List Sight) : List Sight := sights.takeWhile fun sight => !sight.isFlaw

end Sight

def Import.sights (i : Import) : List Sight :=
  match i.names with
  | [] => [.flaw { defect := .noImportedNames, position := i.position }]
  | name :: rest => (name :: rest).map (Sight.ofName i.position)

def Item.sights : Item → List Sight
  | .ofImport i => i.sights
  | .ofStruct s => Sight.ofDeclaration s.flaws (.ofStruct s)
  | .ofFunction f => Sight.ofDeclaration f.flaws (.ofFunction f)

/-- What is come upon in a module, from its first part to its last. -/
def Module.sights (m : Module) : List Sight := m.items.flatMap Item.sights

/-! ## Flaws, names and declarations among it -/

namespace Sight

theorem filterMap_flaw?_map_ofName (position : Position) (names : List String) :
    (names.map (ofName position)).filterMap flaw? = names.flatMap (unnamed .emptyImportedName position) := by
  induction names with
  | nil => rfl
  | cons name rest ih =>
    rw [List.map_cons, List.flatMap_cons, ← ih, ofName, unnamed]
    split <;> rfl

theorem filterMap_declaration?_map_ofName (position : Position) (names : List String) :
    (names.map (ofName position)).filterMap declaration? = [] := by
  simp only [List.filterMap_map, List.filterMap_eq_nil_iff, Function.comp_apply, ofName]
  intro name _
  split <;> rfl

theorem filterMap_name?_map_ofName (position : Position) {names : List String}
    (h : names.flatMap (unnamed .emptyImportedName position) = []) :
    (names.map (ofName position)).filterMap name? = names := by
  induction names with
  | nil => rfl
  | cons name rest ih =>
    rw [List.flatMap_cons, List.append_eq_nil_iff] at h
    have hname : name ≠ "" := by
      rintro rfl
      cases h.1
    rw [List.map_cons, ofName, if_neg hname]
    exact congrArg (name :: ·) (ih h.2)

variable (flaws : List Flaw) (d : SourceDecl)

theorem filterMap_flaw?_ofDeclaration : (ofDeclaration flaws d).filterMap flaw? = flaws := by
  simp [ofDeclaration, flaw?, Function.comp_def]

theorem filterMap_declaration?_ofDeclaration : (ofDeclaration flaws d).filterMap declaration? = [d] := by
  simp [ofDeclaration, declaration?, Function.comp_def]

theorem filterMap_name?_ofDeclaration : (ofDeclaration flaws d).filterMap name? = [] := by
  simp [ofDeclaration, name?, Function.comp_def]

end Sight

namespace Item

theorem filterMap_flaw?_sights (item : Item) : item.sights.filterMap Sight.flaw? = item.flaws := by
  cases item with
  | ofImport i =>
    rw [sights, flaws, Import.sights, Import.flaws]
    cases i.names with
    | nil => rfl
    | cons name rest => exact Sight.filterMap_flaw?_map_ofName i.position (name :: rest)
  | ofStruct s => exact Sight.filterMap_flaw?_ofDeclaration s.flaws (.ofStruct s)
  | ofFunction f => exact Sight.filterMap_flaw?_ofDeclaration f.flaws (.ofFunction f)

theorem filterMap_declaration?_sights (item : Item) :
    item.sights.filterMap Sight.declaration? = item.declared := by
  cases item with
  | ofImport i =>
    rw [sights, declared, Import.sights]
    cases i.names with
    | nil => rfl
    | cons name rest => exact Sight.filterMap_declaration?_map_ofName i.position (name :: rest)
  | ofStruct s => exact Sight.filterMap_declaration?_ofDeclaration s.flaws (.ofStruct s)
  | ofFunction f => exact Sight.filterMap_declaration?_ofDeclaration f.flaws (.ofFunction f)

theorem filterMap_name?_sights {item : Item} (h : item.flaws = []) :
    item.sights.filterMap Sight.name? = item.importedNames := by
  cases item with
  | ofImport i =>
    rw [flaws, Import.flaws] at h
    rw [sights, importedNames, Import.sights]
    cases hnames : i.names with
    | nil =>
      rw [hnames] at h
      cases h
    | cons name rest =>
      rw [hnames] at h
      exact Sight.filterMap_name?_map_ofName i.position h
  | ofStruct s => exact Sight.filterMap_name?_ofDeclaration s.flaws (.ofStruct s)
  | ofFunction f => exact Sight.filterMap_name?_ofDeclaration f.flaws (.ofFunction f)

end Item

/-- The flaws that are come upon are those of the module, in their order. -/
theorem Module.filterMap_flaw?_sights (m : Module) : m.sights.filterMap Sight.flaw? = m.flaws := by
  rw [sights, List.filterMap_flatMap, ← m.flatMap_flaws]
  simp only [Item.filterMap_flaw?_sights]

/-! ## In front of the first flaw -/

namespace Sight

variable {sights more : List Sight}

theorem isFlaw_eq_false_of_filterMap (h : sights.filterMap flaw? = []) :
    ∀ sight ∈ sights, sight.isFlaw = false := by
  intro sight hsight
  have hnone := List.filterMap_eq_nil_iff.mp h sight hsight
  cases sight with
  | flaw what => cases hnone
  | _ => rfl

theorem beforeFlaw_append_of_eq_nil (h : sights.filterMap flaw? = []) :
    beforeFlaw (sights ++ more) = sights ++ beforeFlaw more :=
  List.takeWhile_append_of_pos fun sight hsight => by simp [isFlaw_eq_false_of_filterMap h sight hsight]

theorem beforeFlaw_eq_self (h : sights.filterMap flaw? = []) : beforeFlaw sights = sights := by
  rw [beforeFlaw, List.takeWhile_eq_self_iff]
  intro sight hsight
  simp [isFlaw_eq_false_of_filterMap h sight hsight]

theorem beforeFlaw_ofDeclaration {flaws : List Flaw} (d : SourceDecl) (h : flaws ≠ []) :
    beforeFlaw (ofDeclaration flaws d) = [] := by
  obtain ⟨what, more, rfl⟩ := List.exists_cons_of_ne_nil h
  rfl

theorem beforeFlaw_append_of_ne_nil (h : sights.filterMap flaw? ≠ []) :
    beforeFlaw (sights ++ more) = beforeFlaw sights := by
  induction sights with
  | nil => exact absurd rfl h
  | cons sight rest ih =>
    cases sight with
    | flaw what => rfl
    | name text => exact congrArg (.name text :: ·) (ih h)
    | declaration d => exact congrArg (.declaration d :: ·) (ih h)

end Sight

/-- No declaration with a flaw is come upon in front of it. -/
theorem Item.filterMap_declaration?_beforeFlaw {item : Item} (h : item.flaws ≠ []) :
    (Sight.beforeFlaw item.sights).filterMap Sight.declaration? = [] := by
  cases item with
  | ofImport i =>
    refine List.filterMap_eq_nil_iff.mpr fun sight hsight => ?_
    have hnone := (Item.ofImport i).filterMap_declaration?_sights
    exact List.filterMap_eq_nil_iff.mp hnone sight (List.takeWhile_subset _ hsight)
  | ofStruct s =>
    rw [flaws] at h
    rw [sights, Sight.beforeFlaw_ofDeclaration (.ofStruct s) h, List.filterMap_nil]
  | ofFunction f =>
    rw [flaws] at h
    rw [sights, Sight.beforeFlaw_ofDeclaration (.ofFunction f) h, List.filterMap_nil]

theorem Item.filterMap_declaration?_beforeFlaw_flatMap (items : List Item) :
    (Sight.beforeFlaw (items.flatMap Item.sights)).filterMap Sight.declaration?
      = (Item.beforeFlaw items).flatMap Item.declared := by
  induction items with
  | nil => rfl
  | cons item rest ih =>
    rw [List.flatMap_cons]
    by_cases hitem : item.flaws = []
    · rw [Sight.beforeFlaw_append_of_eq_nil (item.filterMap_flaw?_sights.trans hitem), List.filterMap_append,
        ih, item.filterMap_declaration?_sights, beforeFlaw_cons_of_eq_nil hitem, List.flatMap_cons]
    · rw [Sight.beforeFlaw_append_of_ne_nil (by rwa [item.filterMap_flaw?_sights]),
        filterMap_declaration?_beforeFlaw hitem, beforeFlaw_cons_of_ne_nil hitem, List.flatMap_nil]

theorem Module.filterMap_declaration?_beforeFlaw (m : Module) :
    (Sight.beforeFlaw m.sights).filterMap Sight.declaration? = m.declaredBeforeFlaw :=
  Item.filterMap_declaration?_beforeFlaw_flatMap m.items

/-- The names that a module imports in front of its first flaw. -/
def Module.importedBeforeFlaw (m : Module) : List String :=
  (Sight.beforeFlaw m.sights).filterMap Sight.name?

theorem Module.importedBeforeFlaw_of_flaws_eq_nil (m : Module) (h : m.flaws = []) :
    m.importedBeforeFlaw = m.importedNames := by
  rw [importedBeforeFlaw, Sight.beforeFlaw_eq_self (m.filterMap_flaw?_sights.trans h), sights,
    List.filterMap_flatMap, ← m.flatMap_importedNames]
  rw [← m.flatMap_flaws, List.flatMap_eq_nil_iff] at h
  exact List.flatMap_congr fun item hitem => Item.filterMap_name?_sights (h item hitem)

/-! ## Records -/

/-- The record of a declaration that is given an identifier. -/
def SourceDecl.record (id : UInt64) : SourceDecl → Event
  | .ofStruct s => .structDeclared s.name id
  | .ofFunction f => .functionDeclared f.name.name id

/-- The records of what is come upon. The declarations take the identifiers of a source one after the other. -/
def recordsOf (ids : IdSource) : List Sight → List Event
  | [] => []
  | .name text :: rest => .imported text :: recordsOf ids rest
  | .flaw _ :: rest => recordsOf ids rest
  | .declaration d :: rest => d.record ids.next :: recordsOf ids.advance rest

theorem recordsOf_append (ids : IdSource) (sights more : List Sight) :
    recordsOf ids (sights ++ more)
      = recordsOf ids sights ++ recordsOf (ids.skip (sights.filterMap Sight.declaration?).length) more := by
  induction sights generalizing ids with
  | nil => simp [recordsOf]
  | cons sight rest ih =>
    cases sight with
    | name text => exact congrArg (_ :: ·) (ih ids)
    | flaw what => exact ih ids
    | declaration d =>
      have hskip : (ids.skip 1).skip (rest.filterMap Sight.declaration?).length
          = ids.skip ((Sight.declaration d :: rest).filterMap Sight.declaration?).length := by
        rw [IdSource.skip_skip, Nat.add_comm]
        rfl
      rw [List.cons_append, recordsOf, ih, recordsOf, ← ids.skip_one, hskip, List.cons_append]

theorem importNames_log (position : Position) (ids : IdSource) (names : List String) :
    (importNames position names).log
      = recordsOf ids (Sight.beforeFlaw (names.map (Sight.ofName position))) := by
  induction names with
  | nil => rfl
  | cons name rest ih =>
    rw [importNames, List.map_cons, Sight.ofName]
    by_cases hname : name = ""
    · subst hname
      rfl
    · have hne : name.isEmpty = false := by simpa using hname
      rw [hne, if_neg hname]
      exact congrArg (.imported name :: ·) ih

theorem Import.lower_log (i : Import) (ids : IdSource) :
    i.lower.log = recordsOf ids (Sight.beforeFlaw i.sights) := by
  unfold lower sights
  cases i.names with
  | nil => rfl
  | cons name rest => exact importNames_log i.position ids (name :: rest)

namespace Progress

variable (file : String) (p : Progress)

/-- An item leaves the records of what is come upon in it in front of its first flaw. -/
theorem log_step (item : Item) :
    (p.step file item).1.log = p.log ++ recordsOf p.ids (Sight.beforeFlaw item.sights) := by
  cases item with
  | ofImport i =>
    rw [Item.sights, ← i.lower_log, step]
    split <;> rename_i hlower <;> rw [hlower]
  | ofStruct s =>
    simp only [step, s.lower_eq_settle, Item.sights]
    cases s.flaws with
    | nil => rfl
    | cons what more => exact (List.append_nil _).symm
  | ofFunction f =>
    simp only [step, f.lower_eq_settle, Item.sights]
    cases f.flaws with
    | nil => rfl
    | cons what more => exact (List.append_nil _).symm

/-- So do items one after the other. -/
theorem log_walk (items : List Item) :
    (p.walk file items).1.log = p.log ++ recordsOf p.ids (Sight.beforeFlaw (items.flatMap Item.sights)) := by
  induction items generalizing p with
  | nil => exact (List.append_nil _).symm
  | cons item rest ih =>
    have hsnd := step_snd file p item
    have hlog := log_step file p item
    rw [walk, List.flatMap_cons]
    cases hf : item.flaws with
    | nil =>
      rw [hf] at hsnd
      have hsights := item.filterMap_flaw?_sights.trans hf
      rw [show p.step file item = ((p.step file item).1, none) from Prod.ext rfl hsnd]
      rw [ih, hlog, Sight.beforeFlaw_append_of_eq_nil hsights, Sight.beforeFlaw_eq_self hsights,
        recordsOf_append, item.filterMap_declaration?_sights, ← (takes_step file p hf).ids, List.append_assoc]
    | cons what more =>
      rw [hf] at hsnd
      rw [show p.step file item = ((p.step file item).1, some what.error) from Prod.ext rfl hsnd]
      rw [hlog, Sight.beforeFlaw_append_of_ne_nil (by simp [item.filterMap_flaw?_sights, hf])]

end Progress

/-! ## Records by what they tell -/

namespace Event

/-- Whether a record tells of a declaration that was given an identifier. -/
def isDeclared : Event → Bool
  | .structDeclared .. => true
  | .functionDeclared .. => true
  | _ => false

/-- Whether a record sums up what a module was lowered to. -/
def isSummary : Event → Bool
  | .lowered .. => true
  | _ => false

end Event

section Filters

variable (ids : IdSource) (sights : List Sight)

theorem filter_trace_recordsOf :
    (recordsOf ids sights).filter (·.level = .trace) = (sights.filterMap Sight.name?).map .imported := by
  induction sights generalizing ids with
  | nil => rfl
  | cons sight rest ih =>
    cases sight with
    | name text => exact congrArg (.imported text :: ·) (ih ids)
    | flaw what => exact ih ids
    | declaration d => cases d <;> exact ih ids.advance

theorem filter_isDeclared_recordsOf :
    (recordsOf ids sights).filter Event.isDeclared
      = (sights.filterMap Sight.declaration?).mapIdx fun k d => d.record (ids.nth k) := by
  induction sights generalizing ids with
  | nil => rfl
  | cons sight rest ih =>
    cases sight with
    | name text => exact ih ids
    | flaw what => exact ih ids
    | declaration d =>
      have hrest := ih ids.advance
      simp only [← ids.skip_one, IdSource.nth_skip, Nat.add_comm 1] at hrest
      rw [show (Sight.declaration d :: rest).filterMap Sight.declaration?
        = d :: rest.filterMap Sight.declaration? from rfl, List.mapIdx_cons, ← hrest, ids.nth_zero, ids.skip_one]
      cases d <;> rfl

variable {ids sights}

theorem exists_of_mem_recordsOf {e : Event} (h : e ∈ recordsOf ids sights) :
    (∃ text, e = .imported text) ∨ ∃ (id : UInt64) (d : SourceDecl), e = d.record id := by
  induction sights generalizing ids with
  | nil => cases h
  | cons sight rest ih =>
    cases sight with
    | name text =>
      rcases List.mem_cons.mp h with rfl | h
      · exact .inl ⟨text, rfl⟩
      · exact ih h
    | flaw what => exact ih h
    | declaration d =>
      rcases List.mem_cons.mp h with rfl | h
      · exact .inr ⟨ids.next, d, rfl⟩
      · exact ih h

theorem filter_isSummary_recordsOf : (recordsOf ids sights).filter Event.isSummary = [] := by
  refine List.filter_eq_nil_iff.mpr fun e he => ?_
  obtain ⟨text, rfl⟩ | ⟨id, d, rfl⟩ := exists_of_mem_recordsOf he
  · simp [Event.isSummary]
  · cases d <;> simp [SourceDecl.record, Event.isSummary]

theorem filter_debug_recordsOf :
    (recordsOf ids sights).filter (·.level = .debug) = (recordsOf ids sights).filter Event.isDeclared := by
  refine List.filter_congr fun e he => ?_
  obtain ⟨text, rfl⟩ | ⟨id, d, rfl⟩ := exists_of_mem_recordsOf he
  · rfl
  · cases d <;> rfl

theorem level_of_mem_recordsOf {e : Event} (h : e ∈ recordsOf ids sights) :
    e.level = .trace ∨ e.level = .debug := by
  obtain ⟨text, rfl⟩ | ⟨id, d, rfl⟩ := exists_of_mem_recordsOf h
  · exact .inl rfl
  · cases d <;> exact .inr rfl

end Filters

/-! ## The records of a run -/

/-- The record at the end of a run over a file, if there is one. -/
def summaryOf (file : String) : Except LoweringError Lowered → List Event
  | .ok l => [.lowered file l.imports.length l.declarations.length]
  | .error _ => []

section Summaries

variable (file : String) (result : Except LoweringError Lowered)

theorem filter_trace_summaryOf : (summaryOf file result).filter (·.level = .trace) = [] := by
  cases result <;> rfl

theorem filter_debug_summaryOf : (summaryOf file result).filter (·.level = .debug) = summaryOf file result := by
  cases result <;> rfl

theorem filter_isDeclared_summaryOf : (summaryOf file result).filter Event.isDeclared = [] := by
  cases result <;> rfl

theorem filter_isSummary_summaryOf : (summaryOf file result).filter Event.isSummary = summaryOf file result := by
  cases result <;> rfl

variable {file result}

theorem level_of_mem_summaryOf {e : Event} (h : e ∈ summaryOf file result) :
    e.level = .trace ∨ e.level = .debug := by
  cases result with
  | ok l =>
    obtain rfl := List.mem_singleton.mp h
    exact .inr rfl
  | error error => cases h

end Summaries

/-- The record of a declaration that was lowered. -/
def Declaration.record (d : Declaration) : Event :=
  if d.definition.isStruct then .structDeclared d.name d.id else .functionDeclared d.name d.id

theorem SourceDecl.record_declaration (id : UInt64) (d : SourceDecl) :
    (d.declaration id).record = d.record id := by
  cases d <;> rfl

namespace Module

variable (m : Module) (file : String) (ids : IdSource) (symbols : SymbolTable)

theorem lowerInto_log :
    (m.lowerInto file ids symbols).log
      = recordsOf ids (Sight.beforeFlaw m.sights) ++ summaryOf file (m.lowerInto file ids symbols).result := by
  have hlog := Progress.log_walk file { ids } m.items
  unfold lowerInto
  split <;> rename_i hwalk <;> rw [hwalk] at hlog
  · exact congrArg (· ++ _) hlog
  · exact hlog.trans (List.append_nil _).symm

theorem filter_trace_log :
    (m.lowerInto file ids symbols).log.filter (·.level = .trace) = m.importedBeforeFlaw.map .imported := by
  rw [lowerInto_log, List.filter_append, filter_trace_recordsOf, filter_trace_summaryOf, List.append_nil,
    importedBeforeFlaw]

theorem filter_isDeclared_log :
    (m.lowerInto file ids symbols).log.filter Event.isDeclared
      = m.declaredBeforeFlaw.mapIdx fun k d => d.record (ids.nth k) := by
  rw [lowerInto_log, List.filter_append, filter_isDeclared_recordsOf, filter_isDeclared_summaryOf,
    List.append_nil, filterMap_declaration?_beforeFlaw]

theorem filter_isSummary_log :
    (m.lowerInto file ids symbols).log.filter Event.isSummary
      = summaryOf file (m.lowerInto file ids symbols).result := by
  have hlog := congrArg (List.filter Event.isSummary) (m.lowerInto_log file ids symbols)
  rwa [List.filter_append, filter_isSummary_recordsOf, filter_isSummary_summaryOf, List.nil_append] at hlog

theorem filter_debug_log :
    (m.lowerInto file ids symbols).log.filter (·.level = .debug)
      = (m.lowerInto file ids symbols).log.filter Event.isDeclared
        ++ (m.lowerInto file ids symbols).log.filter Event.isSummary := by
  rw [filter_isSummary_log, lowerInto_log, List.filter_append, List.filter_append, filter_debug_recordsOf,
    filter_debug_summaryOf, filter_isDeclared_summaryOf, List.append_nil]

/-- What the records of a run over a module account for. -/
structure Accounts (run : LoweringRun) : Prop where
  /-- The names in front of the first flaw, in the order of the source. -/
  imports : run.log.filter (·.level = .trace) = m.importedBeforeFlaw.map .imported
  /-- The declarations in front of the first item with a flaw, each with the identifier it was given. -/
  declarations : run.log.filter Event.isDeclared = m.declaredBeforeFlaw.mapIdx fun k d => d.record (ids.nth k)
  identifiers : (givenIds run.log).map UInt64.toNat = List.range' ids.next.toNat m.declaredBeforeFlaw.length
  /-- The source of identifiers has moved on by as many. -/
  next : run.ids.next.toNat = ids.next.toNat + (run.log.filter Event.isDeclared).length
  /-- There is a summary exactly if the module is lowered, and nothing behind it. -/
  summary : run.log.filter Event.isSummary = summaryOf file run.result
  summary_last : ∀ l, run.result = .ok l →
    run.log.getLast? = some (.lowered file l.imports.length l.declarations.length)
  debug : run.log.filter (·.level = .debug) = run.log.filter Event.isDeclared ++ run.log.filter Event.isSummary
  levels : ∀ e ∈ run.log, e.level = .trace ∨ e.level = .debug
  /-- The records of a module that is lowered tell of all its names and declarations. -/
  ok : ∀ l, run.result = .ok l → run.log.filter (·.level = .trace) = l.imports.map (.imported ·.name) ∧
    run.log.filter Event.isDeclared = l.declarations.map Declaration.record

/-- **Records.** The records of a run account for it, whether or not the module is lowered. -/
theorem log_accounts (hroom : ids.next.toNat + m.declaredBeforeFlaw.length < UInt64.size) :
    m.Accounts file ids (m.lowerInto file ids symbols) where
  imports := m.filter_trace_log file ids symbols
  declarations := m.filter_isDeclared_log file ids symbols
  identifiers := by rw [givenIds_lowerInto, IdSource.map_toNat_nth hroom]
  next := by
    rw [filter_isDeclared_log, List.length_mapIdx, ids_lowerInto]
    exact IdSource.toNat_nth hroom
  summary := m.filter_isSummary_log file ids symbols
  summary_last l hl := by
    rw [lowerInto_log, hl]
    exact List.getLast?_concat
  debug := m.filter_debug_log file ids symbols
  levels := by
    rw [lowerInto_log, List.forall_mem_append]
    exact ⟨fun _ => level_of_mem_recordsOf, fun _ => level_of_mem_summaryOf⟩
  ok l hl := by
    rw [lowerInto_result, settle_eq_ok_iff] at hl
    obtain ⟨hflaws, rfl⟩ := hl
    refine ⟨?_, ?_⟩
    · rw [filter_trace_log, m.importedBeforeFlaw_of_flaws_eq_nil hflaws, List.map_map]
      rfl
    · rw [filter_isDeclared_log, m.declaredBeforeFlaw_of_flaws_eq_nil hflaws]
      exact List.ext_getElem (by simp) fun k _ _ => by simp [SourceDecl.record_declaration]

/-- The parts of `sample`, and an import with an empty name among others in front of one more struct. -/
def brokenImportSample : Module where
  parts := sample.parts ++ [
    .imports {} [.list {} ["fs", "", "net"]],
    .structs {} [{ name := "Behind", fields := [] }]]

theorem log_accounts_brokenImportSample :
    (7 : UInt64).toNat + brokenImportSample.declaredBeforeFlaw.length < UInt64.size ∧
      brokenImportSample.importedBeforeFlaw = ["io", "io", "fs"] ∧
      (brokenImportSample.lowerInto "main" ⟨7⟩ .empty).log.filter Event.isDeclared
        = [.functionDeclared "+" 7, .structDeclared "Point" 8] ∧
      brokenImportSample.Accounts "main" ⟨7⟩ (brokenImportSample.lowerInto "main" ⟨7⟩ .empty) := by
  have hroom : (7 : UInt64).toNat + brokenImportSample.declaredBeforeFlaw.length < UInt64.size := by decide
  exact ⟨hroom, by decide, by decide, log_accounts brokenImportSample "main" ⟨7⟩ .empty hroom⟩

end Module

end FrontEnd
