import FrontEnd.Proofs.CommandLine.Streams
import FrontEnd.Proofs.Lowering.Document

/-!
# Runs that lower files

Such a run writes one document for each file in front of the first one that cannot be lowered, and no more.

1. A file is lowered or not by itself: the identifiers that were given out before have no say (`lowers_iff`).
2. `Writes` says what the files in front lead to, one after the other, each with the source of identifiers
   that the one before has left behind; `lowerFiles_writes` is the run.
3. The identifiers of all documents are then in a row (`Writes.flatMap_ids`), from 1 on for a whole run.
-/

namespace FrontEnd

variable {files : Files} {ids : IdSource} {names : List String} {lowered : List LoweredModule}

/-! ## Files that are lowered -/

/-- Whether a file loads, is a module, and is lowered without error when it is the only one. -/
def lowers (files : Files) (file : String) : Bool :=
  match (load files file).result with
  | .ok (.module m) => (m.lower file {}).result.isOk
  | _ => false

theorem Module.isOk_lower_iff (m : Module) (file : String) (ids : IdSource) :
    (m.lower file ids).result.isOk = true ↔ m.flaws = [] := by
  rw [lower, lowerInto_result]
  cases m.flaws with
  | nil => simp [settle, Except.isOk, Except.toBool]
  | cons flaw rest => simp [settle, Except.isOk, Except.toBool]

theorem lowers_iff (files : Files) (file : String) :
    lowers files file = true ↔ ∃ m, (load files file).result = .ok (.module m) ∧ m.flaws = [] := by
  unfold lowers
  cases (load files file).result with
  | error e => simp
  | ok tree =>
    cases tree with
    | configuration c => simp
    | module m => simp [m.isOk_lower_iff]

/-! ## One file after the other -/

/-- What files lead to that are all lowered, each with the identifiers behind those of the one before. -/
inductive Writes (files : Files) : IdSource → List String → List LoweredModule → Prop
  | nil (ids : IdSource) : Writes files ids [] []
  | cons {ids : IdSource} {file : String} {m : Module} {l : LoweredModule} {rest : List String}
      {more : List LoweredModule} (hload : (load files file).result = .ok (.module m))
      (hlower : (m.lower file ids).module = .ok l)
      (hrest : Writes files (m.lower file ids).ids rest more) :
      Writes files ids (file :: rest) (l :: more)

/-- A run goes on behind a file that is lowered. -/
theorem lowerFiles_of_lowers {file : String} (h : lowers files file = true) (ids : IdSource)
    (rest : List String) :
    ∃ m l, (load files file).result = .ok (.module m) ∧ (m.lower file ids).module = .ok l ∧
      stdoutOf (lowerFiles files ids (file :: rest)).outputs
        = l.toJson.pretty ++ "\n" ++ stdoutOf (lowerFiles files (m.lower file ids).ids rest).outputs ∧
      (lowerFiles files ids (file :: rest)).result
        = (lowerFiles files (m.lower file ids).ids rest).result := by
  obtain ⟨m, hload, hflaws⟩ := (lowers_iff files file).mp h
  obtain ⟨log, hrun⟩ := m.lowerInto_of_flaws_eq_nil file ids .empty hflaws
  obtain ⟨l, hmodule⟩ : ∃ l, (m.lower file ids).module = .ok l := by
    rw [Module.lower, hrun]
    exact ⟨_, rfl⟩
  refine ⟨m, l, hload, hmodule, ?_, ?_⟩
  · rw [lowerFiles, Run.andThen_of_ok hload]
    simp only [hmodule, stdoutOf_append, stdoutOf_load, stdoutOf_logged, stdoutOf_cons,
      String.empty_append, Output.stdout]
  · rw [lowerFiles, Run.andThen_of_ok hload]
    simp only [hmodule]

/-- A run stops at a file that is not lowered, and writes nothing for it. -/
theorem lowerFiles_of_not_lowers {file : String} (h : lowers files file = false) (ids : IdSource)
    (rest : List String) :
    stdoutOf (lowerFiles files ids (file :: rest)).outputs = "" ∧
      ∃ e, (lowerFiles files ids (file :: rest)).result = .error e := by
  rw [lowerFiles]
  cases hload : (load files file).result with
  | error e =>
    rw [Run.andThen_of_error hload]
    exact ⟨stdoutOf_load files file, e, rfl⟩
  | ok tree =>
    rw [Run.andThen_of_ok hload]
    cases tree with
    | configuration c => simp
    | module m =>
      cases hflaws : m.flaws with
      | nil =>
        have hlowers : lowers files file = true := (lowers_iff files file).mpr ⟨m, hload, hflaws⟩
        rw [h] at hlowers
        exact absurd hlowers (by decide)
      | cons flaw more =>
        have hmodule : (m.lower file ids).module = .error flaw.error := by
          rw [LoweringRun.module, Module.lower, (m.lowerInto_of_flaws_eq_cons file ids .empty hflaws).1]
          rfl
        simp [hmodule]

/-- **The run.** It writes the documents of the files in front of the first one that is not lowered, and
succeeds if there is no such file. -/
theorem lowerFiles_writes (files : Files) (ids : IdSource) (names : List String) :
    ∃ lowered, Writes files ids (names.takeWhile (lowers files)) lowered ∧
      stdoutOf (lowerFiles files ids names).outputs
        = String.join (lowered.map fun l => l.toJson.pretty ++ "\n") ∧
      ((lowerFiles files ids names).result = .ok () ↔
        (names.takeWhile (lowers files)).length = names.length) := by
  -- The source of identifiers is general: each file starts from where the one before has left it.
  induction names generalizing ids with
  | nil => exact ⟨[], .nil ids, rfl, by simp [lowerFiles]⟩
  | cons file rest ih =>
    cases hfile : lowers files file with
    | false =>
      obtain ⟨hout, e, herror⟩ := lowerFiles_of_not_lowers hfile ids rest
      rw [List.takeWhile_cons, hfile]
      exact ⟨[], .nil ids, hout, by simp [herror]⟩
    | true =>
      obtain ⟨m, l, hload, hmodule, hout, hresult⟩ := lowerFiles_of_lowers hfile ids rest
      obtain ⟨more, hwrites, hmore, hok⟩ := ih (m.lower file ids).ids
      rw [List.takeWhile_cons, hfile, if_pos rfl]
      refine ⟨l :: more, .cons hload hmodule hwrites, ?_, ?_⟩
      · rw [hout, hmore, List.map_cons, String.join_cons]
      · rw [hresult, hok, List.length_cons, List.length_cons, Nat.add_right_cancel_iff]

/-! ## Identifiers across documents -/

/-- The identifiers of all documents are in a row. -/
theorem Writes.flatMap_ids (h : Writes files ids names lowered) :
    ∃ k, lowered.flatMap LoweredModule.ids = (List.range k).map ids.nth := by
  induction h with
  | nil ids => exact ⟨0, rfl⟩
  | @cons ids file m l rest more hload hlower hrest ih =>
    obtain ⟨hfirst, hnext⟩ := Module.ids_of_module_eq_ok hlower
    obtain ⟨k, hk⟩ := ih
    refine ⟨m.declared.length + k, ?_⟩
    rw [List.flatMap_cons, hfirst, hk, hnext, List.range_add, List.map_append, List.map_map]
    simp [Function.comp_def]

theorem Writes.forall₂ (h : Writes files ids names lowered) :
    List.Forall₂ (fun file l => ∃ m ids, (load files file).result = .ok (.module m) ∧
      (m.lower file ids).module = .ok l) names lowered := by
  induction h with
  | nil ids => exact .nil
  | cons hload hlower _ ih => exact .cons ⟨_, _, hload, hlower⟩ ih

/-- Every document is that of a module that has been lowered. -/
theorem Writes.exists_module (h : Writes files ids names lowered) {l : LoweredModule} (hl : l ∈ lowered) :
    ∃ m file ids, (Module.lower m file ids).module = .ok l := by
  induction h with
  | nil ids => cases hl
  | @cons ids file m l' rest more hload hlower hrest ih =>
    rcases List.mem_cons.mp hl with rfl | hl
    · exact ⟨m, file, ids, hlower⟩
    · exact ih hl

theorem mapM_referenceIds? (lowered : List LoweredModule) :
    (lowered.map LoweredModule.toJson).mapM Json.referenceIds?
      = some (lowered.map fun l => l.ids.map UInt64.toNat) := by
  rw [List.mapM_map]
  exact (congrArg (lowered.mapM ·) (funext LoweredModule.referenceIds?_toJson)).trans List.mapM_pure

/-! ## Outcomes -/

/-- What the program leaves behind that has lowered some files: documents with their identifiers. -/
structure LeavesDocuments (files : Files) (names : List String) (outcome : Outcome)
    (documents : List Json) (ids : List (List Nat)) : Prop where
  /-- The standard output is the documents, each with a line feed behind it. -/
  stdout_eq : outcome.stdout = String.join (documents.map fun document => document.pretty ++ "\n")
  /-- Each of them is a text in JSON. -/
  read_back : ∀ document ∈ documents, Json.read? document.pretty = some document
  /-- There is one for each file in front of the first one that is not lowered, in their order. -/
  lowered : List.Forall₂ (fun file document => ∃ m ids l,
    (load files file).result = .ok (.module m) ∧ (Module.lower m file ids).module = .ok l ∧
      document = l.toJson) (names.takeWhile (lowers files)) documents
  /-- The identifiers of the references, as they stand in the documents. -/
  references : documents.mapM Json.referenceIds? = some ids
  /-- They are the words of 64 bits from 1 on. -/
  numbered : ids.flatten = (List.range ids.flatten.length).map fun k => (1 + k) % UInt64.size
  /-- As long as there are words left, none is left out and none comes back. -/
  in_a_row : ids.flatten.length < UInt64.size → ids.flatten = List.range' 1 ids.flatten.length
  /-- The keys of the symbols of a document are the identifiers of its references, each once. -/
  symbols : ∀ document ∈ documents, ∃ ids keys, document.referenceIds? = some ids ∧
    document.symbolKeys? = some keys ∧ keys.Nodup ∧ ∀ key, key ∈ keys ↔ key ∈ ids.map Nat.repr
  /-- The program succeeds if all files are lowered, and fails otherwise. -/
  code_eq : outcome.code = if (names.takeWhile (lowers files)).length = names.length then 0 else 1

/-- **Documents.** However much the program is asked to record and in whatever colours, it leaves the
documents of the files in front of the first one that is not lowered. -/
theorem exists_documents_of_lower (files : Files) (names : List String) (verbosity : Nat)
    (color : ColorChoice) :
    ∃ documents ids, LeavesDocuments files names
      (Request.outcome { verbosity, color, command := .lower, files := names } files) documents ids := by
  obtain ⟨lowered, hwrites, hout, hok⟩ := lowerFiles_writes files {} names
  obtain ⟨k, hids⟩ := hwrites.flatMap_ids
  have hflatten : (lowered.map fun l => l.ids.map UInt64.toNat).flatten
      = (List.range k).map fun i => (1 + i) % UInt64.size := by
    rw [← List.flatMap_def, ← List.map_flatMap, hids, List.map_map]
    exact List.map_congr_left fun i _ => IdSource.toNat_nth_eq_mod {} i
  have hlength : (lowered.map fun l => l.ids.map UInt64.toNat).flatten.length = k := by
    rw [hflatten, List.length_map, List.length_range]
  refine ⟨lowered.map LoweredModule.toJson, lowered.map fun l => l.ids.map UInt64.toNat,
    ?_, ?_, ?_, mapM_referenceIds? lowered, ?_, ?_, ?_, Request.code_outcome_of_ok_iff hok⟩
  · rw [Request.stdout_outcome, List.map_map]
    exact hout
  · intro document hdocument
    obtain ⟨l, -, rfl⟩ := List.mem_map.mp hdocument
    exact Json.read?_pretty l.isPrintable_toJson
  · refine List.forall₂_map_right_iff.mpr (hwrites.forall₂.imp ?_)
    rintro file l ⟨m, ids, hload, hlower⟩
    exact ⟨m, ids, l, hload, hlower, rfl⟩
  · rw [hlength]
    exact hflatten
  · intro hroom
    rw [hlength] at hroom ⊢
    rw [hflatten, List.range'_eq_map_range]
    refine List.map_congr_left fun i hi => ?_
    have hi : i < k := List.mem_range.mp hi
    exact Nat.mod_eq_of_lt (by omega)
  · intro document hdocument
    obtain ⟨l, hl, rfl⟩ := List.mem_map.mp hdocument
    obtain ⟨m, file, ids, hlower⟩ := hwrites.exists_module hl
    obtain ⟨keys, hkeys⟩ := Module.symbolKeys_of_module_eq_ok hlower
    exact ⟨_, keys, l.referenceIds?_toJson, hkeys⟩

theorem lowers_point : lowers sampleFiles "point" = true :=
  (lowers_iff ..).mpr ⟨pointModule, load_point, rfl⟩

theorem lowers_data : lowers sampleFiles "data" = false := by
  rw [lowers, load_data]

/-- The document of `pointModule` has one reference, whatever the identifiers. -/
theorem referenceIds?_point {file : String} {ids : IdSource} {l : LoweredModule}
    (h : (pointModule.lower file ids).module = .ok l) : l.toJson.referenceIds? = some [ids.next.toNat] := by
  rw [l.referenceIds?_toJson, (Module.ids_of_module_eq_ok h).1]
  show some [(ids.nth 0).toNat] = some [ids.next.toNat]
  rw [ids.nth_zero]

/-- A module that is given twice, in front of a file that is no module. -/
theorem documents_sample :
    ["point", "point", "data"].takeWhile (lowers sampleFiles) = ["point", "point"] ∧
      ∃ documents ids, LeavesDocuments sampleFiles ["point", "point", "data"]
          (Request.outcome ⟨2, .never, .lower, ["point", "point", "data"]⟩ sampleFiles) documents ids ∧
        documents.length = 2 ∧ ids.flatten.length < UInt64.size ∧ ids.flatten = [1, 2] := by
  have htake : ["point", "point", "data"].takeWhile (lowers sampleFiles) = ["point", "point"] := by
    simp [lowers_point, lowers_data]
  obtain ⟨documents, ids, h⟩ :=
    exists_documents_of_lower sampleFiles ["point", "point", "data"] 2 .never
  have hlowered := h.lowered
  have hreferences := h.references
  rw [htake] at hlowered
  obtain ⟨first, _, ⟨m, from₁, l, hload, hlower, rfl⟩, hrest, rfl⟩ :=
    List.forall₂_cons_left_iff.mp hlowered
  obtain ⟨second, _, ⟨m', from₂, l', hload', hlower', rfl⟩, hnil, rfl⟩ :=
    List.forall₂_cons_left_iff.mp hrest
  obtain rfl := List.forall₂_nil_left_iff.mp hnil
  obtain rfl : pointModule = m := by
    simpa [load_point] using hload
  obtain rfl : pointModule = m' := by
    simpa [load_point] using hload'
  rw [List.mapM_cons, referenceIds?_point hlower, List.mapM_cons, referenceIds?_point hlower'] at hreferences
  obtain rfl : [[from₁.next.toNat], [from₂.next.toNat]] = ids := Option.some.inj hreferences
  have hroom : [[from₁.next.toNat], [from₂.next.toNat]].flatten.length < UInt64.size := by
    show 2 < UInt64.size
    decide
  exact ⟨htake, _, _, h, rfl, hroom, h.in_a_row hroom⟩

end FrontEnd
