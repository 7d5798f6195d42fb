import FrontEnd.Proofs.CommandLine.Documents
import FrontEnd.Proofs.CommandLine.Verdicts
import FrontEnd.Proofs.Results

/-!
# Checks agree with lowering

A run that checks files goes on behind one that fails, and a run that lowers them stops there; their sources
of identifiers part at that point. They still end with the same code on every list of files.

1. For one tree the two do the same: a module passes if it is lowered, fails with the same error, and leaves
   the same source of identifiers (`SourceTree.LowersAlike`).
2. A run of checks ends well if all files load and no error is found in them (`checkFiles_eq_ok_iff`,
   `hasErrors_problems`), and that is whether each of them is lowered when it is the only one (`lowers_eq`).
3. A run of lowering ends well if no file stops it, which is the same.
-/

namespace FrontEnd

/-! ## One tree -/

theorem ids_check_module (m : Module) (file : String) (ids : IdSource) :
    (SourceTree.check (.module m) file ids).ids = (m.lower file ids).ids := by
  rcases hrun : m.lower file ids with ⟨ids', symbols, log, result⟩
  cases result with
  | ok lowered => simp only [SourceTree.check, hrun]
  | error e => simp only [SourceTree.check, hrun]

theorem LoweringRun.module_eq_error_iff (r : LoweringRun) (e : LoweringError) :
    r.module = .error e ↔ r.result = .error e := by
  rw [LoweringRun.module]
  cases r.result with
  | ok lowered => simp [Except.map]
  | error e' => simp [Except.map]

/-- What the check of a tree has to do with the lowering of it. -/
structure SourceTree.LowersAlike (tree : SourceTree) (file : String) (ids : IdSource) : Prop where
  /-- A tree passes if it is a module that is lowered. -/
  passes_iff : (tree.check file ids).result = .ok () ↔
    ∃ m l, tree = .module m ∧ (m.lower file ids).module = .ok l
  /-- A module fails with the error that it is not lowered for. -/
  error_iff : ∀ m, tree = .module m → ∀ e,
    (tree.check file ids).result = .error e ↔ (m.lower file ids).module = .error e
  /-- A module leaves the source of identifiers as its lowering does, whether it passes or not. -/
  ids_of_module : ∀ m, tree = .module m → (tree.check file ids).ids = (m.lower file ids).ids
  /-- A configuration fails, and leaves the source of identifiers as it was. -/
  configuration : ∀ c, tree = .configuration c →
    (tree.check file ids).result = .error (.typeMismatch "Module" "Configuration") ∧
      (tree.check file ids).ids = ids

theorem SourceTree.lowersAlike (tree : SourceTree) (file : String) (ids : IdSource) :
    tree.LowersAlike file ids := by
  cases tree with
  | configuration c =>
    refine ⟨?_, nofun, nofun, fun _ _ => ⟨rfl, rfl⟩⟩
    constructor
    · intro h
      cases h
    · rintro ⟨m, l, h, -⟩
      cases h
  | module m =>
    refine ⟨?_, ?_, ?_, nofun⟩
    · rw [result_check_module]
      constructor
      · intro h
        obtain ⟨lowered, hlowered, -⟩ := (map_eq_ok_iff _ _ _).mp h
        exact ⟨m, ⟨lowered, (m.lower file ids).symbols⟩, rfl, LoweringRun.module_eq_ok_iff.mpr ⟨hlowered, rfl⟩⟩
      · rintro ⟨_, l, heq, hl⟩
        obtain rfl := SourceTree.module.inj heq
        exact (map_eq_ok_iff _ _ _).mpr ⟨l.lowered, (LoweringRun.module_eq_ok_iff.mp hl).1, rfl⟩
    · rintro _ heq e
      obtain rfl := SourceTree.module.inj heq
      rw [result_check_module, LoweringRun.module_eq_error_iff]
      cases (m.lower file ids).result <;> simp [Except.map]
    · rintro _ heq
      obtain rfl := SourceTree.module.inj heq
      exact ids_check_module m file ids

/-! ## Runs over files -/

variable {files : Files}

/-- A file is lowered if it loads and passes its check. -/
theorem lowers_eq (files : Files) (file : String) :
    lowers files file = (loads files file && !fails files file) := by
  unfold lowers loads fails verdict
  cases (load files file).result with
  | error e => rfl
  | ok tree =>
    cases tree with
    | configuration c => rfl
    | module m =>
      simp only [Except.map, result_check_module]
      cases (m.lower file {}).result <;> rfl

/-- A run of checks comes to its end if all files load, and has then the diagnostics of those that fail. -/
theorem checkFiles_eq_ok_iff (ids : IdSource) (found : List Diagnostic) (names : List String)
    (all : DiagnosticList) :
    (checkFiles files ids ⟨found⟩ names).result = .ok all ↔
      (∀ name ∈ names, loads files name = true) ∧ all = ⟨found ++ problems files names⟩ := by
  induction names generalizing ids found with
  | nil => simp [checkFiles, problems, @eq_comm _ all]
  | cons file rest ih =>
    cases hfile : loads files file with
    | false =>
      obtain ⟨e, he⟩ := exists_error_of_not_loads hfile
      obtain ⟨-, -, hresult⟩ := checkFiles_stop false ids found he rest
      simp [hresult, hfile]
    | true =>
      obtain ⟨ids', hgoes⟩ := checkFiles_cons false ids found hfile rest
      rw [hgoes.result_eq, ih, List.append_assoc, ← problems_append, List.forall_mem_cons]
      simp [hfile]

theorem runCheck_eq_ok_iff (names : List String) :
    (runCheck files names).result = .ok () ↔ ∀ name ∈ names, lowers files name = true := by
  have hends : (runCheck files names).result = .ok () ↔
      ∃ all, (checkFiles files {} ⟨[]⟩ names).result = .ok all ∧ all.hasErrors = false := by
    rw [runCheck, Run.andThen]
    cases (checkFiles files {} ⟨[]⟩ names).result with
    | error e => simp
    | ok all => simp
  have hnone : (runCheck files names).result = .ok () ↔
      (∀ name ∈ names, loads files name = true) ∧ names.countP (fails files) = 0 := by
    simp only [hends, checkFiles_eq_ok_iff, and_assoc, exists_and_left, exists_eq_left, List.nil_append,
      hasErrors_problems]
  rw [hnone, List.countP_eq_zero, ← forall_and]
  simp [lowers_eq, forall_and]

theorem runLower_eq_ok_iff (names : List String) :
    (runLower files names).result = .ok () ↔ ∀ name ∈ names, lowers files name = true := by
  obtain ⟨-, -, -, hok⟩ := lowerFiles_writes files {} names
  have hfront := List.takeWhile_prefix (lowers files) (l := names)
  rw [runLower, hok, ← List.takeWhile_eq_self_iff]
  exact ⟨hfront.eq_of_length, congrArg List.length⟩

/-! ## Codes -/

/-- The code of a run of either command: whether each file is lowered when it is the only one. -/
def agreedCode (files : Files) (names : List String) : Nat :=
  if ∀ name ∈ names, lowers files name = true then 0 else 1

theorem code_check {r : Request} (h : r.command = .check) :
    (r.outcome files).code = agreedCode files r.files := by
  refine Request.code_outcome_of_ok_iff ?_
  rw [Request.run, h]
  exact runCheck_eq_ok_iff r.files

theorem code_lower {r : Request} (h : r.command = .lower) :
    (r.outcome files).code = agreedCode files r.files := by
  refine Request.code_outcome_of_ok_iff ?_
  rw [Request.run, h]
  exact runLower_eq_ok_iff r.files

/-- What the arguments behind a command ask for does not depend on which command it is. -/
theorem Request.ofArgs?_cons {word : String} (command : Command) (hword : Command.ofWord? word = some command)
    (hcolor : word ≠ "--color") (hverbose : verboseCount? word = none) (hchoice : colorWord? word = none)
    (args : List String) :
    ofArgs? (word :: args) = ofFiles? {} command args := by
  cases args with
  | nil => rfl
  | cons next rest =>
    rw [ofArgs?, readOptions?, if_neg hcolor, hverbose, hchoice, hword]
    rfl

/-- **Checks agree with lowering.** The two commands end with the same code, whatever the files are and
however much is recorded, and for the same arguments. For one tree the check is the lowering of it. -/
theorem check_agrees_with_lowering (files : Files) :
    (∀ names verbosity verbosity' color color',
      (Request.outcome { verbosity, color, command := .check, files := names } files).code
          = agreedCode files names ∧
        (Request.outcome
          { verbosity := verbosity', color := color', command := .lower, files := names } files).code
          = agreedCode files names) ∧
    (∀ args, (runProgram files ("check" :: args)).code = (runProgram files ("ir" :: args)).code) ∧
    ∀ (tree : SourceTree) (file : String) (ids : IdSource), tree.LowersAlike file ids := by
  refine ⟨fun names _ _ _ _ => ⟨code_check rfl, code_lower rfl⟩, ?_, SourceTree.lowersAlike⟩
  intro args
  rw [runProgram, runProgram, Request.ofArgs?_cons .check rfl (by decide) rfl rfl,
    Request.ofArgs?_cons .lower rfl (by decide) rfl rfl]
  simp only [Request.ofFiles?]
  -- Either both are requests for the same files, or the arguments are wrong for both.
  cases readFiles? false args with
  | none => rfl
  | some names =>
    cases names with
    | nil => rfl
    | cons name names =>
      show (Request.outcome ⟨0, .auto, .check, name :: names⟩ files).code
        = (Request.outcome ⟨0, .auto, .lower, name :: names⟩ files).code
      rw [code_check rfl, code_lower rfl]

end FrontEnd
