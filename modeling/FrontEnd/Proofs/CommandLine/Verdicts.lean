import FrontEnd.Proofs.CommandLine.Streams
import FrontEnd.Proofs.Lowering.Module

/-!
# Runs that check files

All files of such a run share one source of identifiers, and a file that fails leaves it moved on. Still no
file has a say in how another one fares.

1. The result of a check does not depend on the identifiers (`SourceTree.result_check`), so a file has one
   `verdict`, and leaves its own `share` on the two streams.
2. A run over files that load leaves their shares in order and hands their diagnostics on, and it goes on from
   there (`checkFiles_append`); at a file that does not load it stops (`checkFiles_stop`).
3. These diagnostics are errors, one for each file that fails, so the run ends well if there is none
   (`hasErrors_problems`). What the program adds to the shares is the summary or the failure at the end.
-/

namespace FrontEnd

variable {files : Files}

/-! ## Verdicts -/

theorem result_check_module (m : Module) (file : String) (ids : IdSource) :
    (SourceTree.check (.module m) file ids).result = (m.lower file ids).result.map fun _ => () := by
  rcases hrun : m.lower file ids with ⟨ids', symbols, log, result⟩
  cases result with
  | ok lowered => simp only [SourceTree.check, hrun, Except.map]
  | error e => simp only [SourceTree.check, hrun, Except.map]

/-- The identifiers that have been given out before have no say in a check. -/
theorem SourceTree.result_check (tree : SourceTree) (file : String) (ids : IdSource) :
    (tree.check file ids).result = (tree.check file {}).result := by
  cases tree with
  | configuration c => simp only [SourceTree.check]
  | module m =>
    rw [result_check_module, result_check_module, Module.lower, Module.lower, Module.lowerInto_result,
      Module.lowerInto_result]
    -- Both runs are settled by the flaws of the module, which are the same.
    cases m.flaws with
    | nil => simp only [settle, Except.map]
    | cons flaw rest => simp only [settle, Except.map]

/-- Whether a file holds a syntax tree. -/
def loads (files : Files) (file : String) : Bool := (load files file).result.isOk

theorem exists_tree_of_loads {file : String} (h : loads files file = true) :
    ∃ tree, (load files file).result = .ok tree := by
  unfold loads at h
  cases hload : (load files file).result with
  | ok tree => exact ⟨tree, rfl⟩
  | error e =>
    rw [hload] at h
    cases h

theorem exists_error_of_not_loads {file : String} (h : loads files file = false) :
    ∃ e, (load files file).result = .error e := by
  unfold loads at h
  cases hload : (load files file).result with
  | error e => exact ⟨e, rfl⟩
  | ok tree =>
    rw [hload] at h
    cases h

/-- How a file fares that is checked with identifiers from 1 on: why it is not loaded, or the result of the
check. -/
def verdict (files : Files) (file : String) : Except Failure (Except LoweringError Unit) :=
  (load files file).result.map fun tree => (tree.check file {}).result

/-- Whether a file loads and fails its check. -/
def fails (files : Files) (file : String) : Bool :=
  match verdict files file with
  | .ok (.error _) => true
  | _ => false

/-- The diagnostic of a file that loads and fails its check. -/
def problem? (files : Files) (file : String) : Option Diagnostic :=
  match verdict files file with
  | .ok (.error e) => some e.diagnostic
  | _ => none

/-- The diagnostics of files that fail, in the order of the files. -/
def problems (files : Files) (names : List String) : List Diagnostic := names.filterMap (problem? files)

theorem isSome_problem? (files : Files) (file : String) :
    (problem? files file).isSome = fails files file := by
  unfold problem? fails
  split <;> rfl

theorem level_of_problem? {file : String} {d : Diagnostic} (h : problem? files file = some d) :
    d.level = .error := by
  unfold problem? at h
  split at h
  · obtain rfl := Option.some.inj h
    exact LoweringError.level_diagnostic _
  · cases h

theorem problems_append (files : Files) (names more : List String) :
    problems files (names ++ more) = problems files names ++ problems files more :=
  List.filterMap_append

theorem length_problems (files : Files) (names : List String) :
    (problems files names).length = names.countP (fails files) := by
  rw [problems, List.length_filterMap_eq_countP]
  exact List.countP_congr fun name _ => by rw [isSome_problem?]

/-- There is an error among the diagnostics exactly if a file fails, for all of them are errors. -/
theorem hasErrors_problems (files : Files) (names : List String) :
    (DiagnosticList.mk (problems files names)).hasErrors = false ↔ names.countP (fails files) = 0 := by
  rw [DiagnosticList.hasErrors_eq_false_iff, ← length_problems, List.length_eq_zero_iff]
  intro d hd
  obtain ⟨name, -, hname⟩ := List.mem_filterMap.mp hd
  exact level_of_problem? hname

/-- A text on each of the two streams. -/
structure Share where
  stdout : String
  stderr : String
  deriving DecidableEq

/-- What a file leaves that loads: a line if it passes, or its diagnostic. -/
def share (files : Files) (colored : Bool) (file : String) : Share :=
  match verdict files file with
  | .ok (.ok ()) => { stdout := file ++ ": PASS\n", stderr := "" }
  | .ok (.error e) => { stdout := "", stderr := e.diagnostic.render colored }
  | .error _ => { stdout := "", stderr := "" }

/-- The shares of files on the standard output, one after the other. -/
def stdoutShares (files : Files) (colored : Bool) (names : List String) : String :=
  String.join (names.map fun name => (share files colored name).stdout)

def stderrShares (files : Files) (colored : Bool) (names : List String) : String :=
  String.join (names.map fun name => (share files colored name).stderr)

theorem stdoutShares_append (files : Files) (colored : Bool) (names more : List String) :
    stdoutShares files colored (names ++ more)
      = stdoutShares files colored names ++ stdoutShares files colored more := by
  rw [stdoutShares, List.map_append, String.join_append, stdoutShares, stdoutShares]

theorem stderrShares_append (files : Files) (colored : Bool) (names more : List String) :
    stderrShares files colored (names ++ more)
      = stderrShares files colored names ++ stderrShares files colored more := by
  rw [stderrShares, List.map_append, String.join_append, stderrShares, stderrShares]

/-- The last line of a check in which files have failed. -/
def failedSummary (colored : Bool) (failed total : Nat) : String :=
  Style.boldRed.paint colored "Error:" ++ " " ++
    (failed.repr ++ " of " ++ total.repr ++ " files failed the check") ++ "\n"

theorem render_checkFailed (colored : Bool) (failed total : Nat) :
    (Failure.checkFailed failed total).render colored = failedSummary colored failed total := by
  unfold Failure.render failedSummary
  exact String.append_empty

/-! ## Runs over files -/

/-- How a run over files goes on behind some of them: it leaves their shares, and ends as the rest of it. -/
structure GoesOn (files : Files) (colored : Bool) (names : List String) (run more : Run DiagnosticList) :
    Prop where
  stdout_eq : stdoutOf run.outputs = stdoutShares files colored names ++ stdoutOf more.outputs
  stderr_eq : stderrOf 0 colored run.outputs
    = stderrShares files colored names ++ stderrOf 0 colored more.outputs
  result_eq : run.result = more.result

namespace GoesOn

variable {colored : Bool} {names behind : List String} {run next more : Run DiagnosticList}

theorem refl (files : Files) (colored : Bool) (run : Run DiagnosticList) :
    GoesOn files colored [] run run where
  stdout_eq := String.empty_append.symm
  stderr_eq := String.empty_append.symm
  result_eq := rfl

theorem trans (h : GoesOn files colored names run next) (hnext : GoesOn files colored behind next more) :
    GoesOn files colored (names ++ behind) run more where
  stdout_eq := by
    rw [h.stdout_eq, hnext.stdout_eq, stdoutShares_append, String.append_assoc]
  stderr_eq := by
    rw [h.stderr_eq, hnext.stderr_eq, stderrShares_append, String.append_assoc]
  result_eq := h.result_eq.trans hnext.result_eq

end GoesOn

variable (colored : Bool) (ids : IdSource) (found : List Diagnostic)

/-- A file that loads leaves its share and its diagnostic, and the run goes on behind it. -/
theorem checkFiles_cons {file : String} (h : loads files file = true) (rest : List String) :
    ∃ ids', GoesOn files colored [file] (checkFiles files ids ⟨found⟩ (file :: rest))
      (checkFiles files ids' ⟨found ++ problems files [file]⟩ rest) := by
  obtain ⟨tree, hload⟩ := exists_tree_of_loads h
  -- The run checks with `ids`, the verdict is that of a check from 1 on.
  have hverdict : verdict files file = .ok (tree.check file ids).result := by
    rw [verdict, hload, tree.result_check file ids]
    rfl
  have hadd : (tree.check file ids).addTo ⟨found⟩ = ⟨found ++ problems files [file]⟩ := by
    rw [CheckRun.addTo, problems, List.filterMap_cons, problem?, hverdict]
    cases (tree.check file ids).result with
    | ok => simp
    | error e => simp [DiagnosticList.add]
  refine ⟨(tree.check file ids).ids, ?_⟩
  rw [checkFiles, Run.andThen_of_ok hload]
  simp only [hadd]
  cases hresult : (tree.check file ids).result with
  | ok =>
    have hline : file ++ ": " ++ passWord ++ "\n" = file ++ ": PASS\n" := by
      rw [String.append_assoc, String.append_assoc]
      rfl
    exact {
      stdout_eq := by simp [stdoutShares, share, hverdict, checkOutputs, hresult, Output.stdout, hline]
      stderr_eq := by simp [stderrShares, share, hverdict, checkOutputs, hresult, Output.stderr]
      result_eq := rfl }
  | error e =>
    exact {
      stdout_eq := by simp [stdoutShares, share, hverdict, checkOutputs, hresult]
      stderr_eq := by simp [stderrShares, share, hverdict, checkOutputs, hresult]
      result_eq := rfl }

theorem checkFiles_stop {file : String} {e : Failure} (h : (load files file).result = .error e)
    (rest : List String) :
    stdoutOf (checkFiles files ids ⟨found⟩ (file :: rest)).outputs = "" ∧
      stderrOf 0 colored (checkFiles files ids ⟨found⟩ (file :: rest)).outputs = "" ∧
      (checkFiles files ids ⟨found⟩ (file :: rest)).result = .error e := by
  rw [checkFiles, Run.andThen_of_error h]
  exact ⟨stdoutOf_load files file, stderrOf_load colored files file, rfl⟩

/-- **The run.** Files that load leave their shares and their diagnostics in their order, and the run goes on
behind them. -/
theorem checkFiles_append {before : List String} (h : ∀ name ∈ before, loads files name = true)
    (rest : List String) :
    ∃ ids', GoesOn files colored before (checkFiles files ids ⟨found⟩ (before ++ rest))
      (checkFiles files ids' ⟨found ++ problems files before⟩ rest) := by
  induction before generalizing ids found with
  | nil =>
    refine ⟨ids, ?_⟩
    rw [problems, List.filterMap_nil, List.append_nil, List.nil_append]
    exact .refl files colored _
  | cons file before ih =>
    obtain ⟨hfile, hbefore⟩ := List.forall_mem_cons.mp h
    obtain ⟨next, hcons⟩ := checkFiles_cons colored ids found hfile (before ++ rest)
    obtain ⟨ids', hgoes⟩ := ih next (found ++ problems files [file]) hbefore
    refine ⟨ids', ?_⟩
    rw [List.append_assoc, ← problems_append] at hgoes
    exact hcons.trans hgoes

/-! ## Outcomes -/

/-- The outcome of a check without verbosity. -/
def checkOutcome (files : Files) (color : ColorChoice) (names : List String) : Outcome :=
  Request.outcome { verbosity := 0, color, command := .check, files := names } files

theorem checkOutcome_of_ok {color : ColorChoice} {names : List String}
    (h : (runCheck files names).result = .ok ()) :
    checkOutcome files color names = {
      code := 0
      stdout := stdoutOf (runCheck files names).outputs
      stderr := stderrOf 0 (color = .always) (runCheck files names).outputs } :=
  Request.outcome_of_ok (r := { verbosity := 0, color, command := .check, files := names }) h

theorem checkOutcome_of_error {color : ColorChoice} {names : List String} {e : Failure}
    (h : (runCheck files names).result = .error e) :
    checkOutcome files color names = {
      code := 1
      stdout := stdoutOf (runCheck files names).outputs
      stderr := stderrOf 0 (color = .always) (runCheck files names).outputs
        ++ e.render (color = .always) } :=
  Request.outcome_of_error (r := { verbosity := 0, color, command := .check, files := names }) h

theorem checkOutcome_of_loads (color : ColorChoice) {names : List String}
    (h : ∀ name ∈ names, loads files name = true) :
    checkOutcome files color names =
      if names.countP (fails files) = 0 then
        { code := 0
          stdout := stdoutShares files (color = .always) names
          stderr := stderrShares files (color = .always) names }
      else
        { code := 1
          stdout := stdoutShares files (color = .always) names
          stderr := stderrShares files (color = .always) names
            ++ failedSummary (color = .always) (names.countP (fails files)) names.length } := by
  obtain ⟨ids', hgoes⟩ := checkFiles_append (color = .always) {} [] h []
  rw [List.append_nil, List.nil_append] at hgoes
  -- Behind the last file the run has nothing left to do.
  have hout : stdoutOf (checkFiles files {} {} names).outputs = stdoutShares files (color = .always) names :=
    hgoes.stdout_eq.trans String.append_empty
  have herr : stderrOf 0 (color = .always) (checkFiles files {} {} names).outputs
      = stderrShares files (color = .always) names :=
    hgoes.stderr_eq.trans String.append_empty
  have hresult : (checkFiles files {} {} names).result = .ok ⟨problems files names⟩ := hgoes.result_eq
  have hrun : runCheck files names = {
      outputs := (checkFiles files {} {} names).outputs
      result :=
        if names.countP (fails files) = 0 then .ok ()
        else .error (.checkFailed (names.countP (fails files)) names.length) } := by
    rw [runCheck, Run.andThen_of_ok hresult, List.append_nil, length_problems]
    simp only [← hasErrors_problems, ← Bool.not_eq_true, ite_not]
  by_cases hnone : names.countP (fails files) = 0
  · rw [if_pos hnone, checkOutcome_of_ok (by rw [hrun, if_pos hnone]), hrun, hout, herr]
  · rw [if_neg hnone, checkOutcome_of_error (by rw [hrun, if_neg hnone]), hrun, hout, herr,
      render_checkFailed]

theorem checkOutcome_of_stop (color : ColorChoice) {before : List String}
    (h : ∀ name ∈ before, loads files name = true) {name : String} {e : Failure}
    (hname : (load files name).result = .error e) (after : List String) :
    checkOutcome files color (before ++ name :: after) = {
      code := 1
      stdout := stdoutShares files (color = .always) before
      stderr := stderrShares files (color = .always) before ++ e.render (color = .always) } := by
  obtain ⟨ids', hgoes⟩ := checkFiles_append (color = .always) {} [] h (name :: after)
  obtain ⟨hout', herr', hresult'⟩ :=
    checkFiles_stop (color = .always) ids' ([] ++ problems files before) hname after
  have hout : stdoutOf (checkFiles files {} {} (before ++ name :: after)).outputs
      = stdoutShares files (color = .always) before := by
    rw [hgoes.stdout_eq, hout', String.append_empty]
  have herr : stderrOf 0 (color = .always) (checkFiles files {} {} (before ++ name :: after)).outputs
      = stderrShares files (color = .always) before := by
    rw [hgoes.stderr_eq, herr', String.append_empty]
  have hresult : (checkFiles files {} {} (before ++ name :: after)).result = .error e :=
    hgoes.result_eq.trans hresult'
  have hrun : runCheck files (before ++ name :: after) = {
      outputs := (checkFiles files {} {} (before ++ name :: after)).outputs
      result := .error e } := by
    rw [runCheck, Run.andThen_of_error hresult]
  rw [checkOutcome_of_error (by rw [hrun]), hrun, hout, herr]

/-- What the program leaves behind that has checked some files, as a function of the files. -/
structure ChecksApart (files : Files) (colored : Bool) (outcome : List String → Outcome) : Prop where
  /-- A file that loads leaves its share when it is checked alone, with a summary behind it if it fails. -/
  alone : ∀ name, loads files name = true →
    outcome [name] =
      if fails files name then
        { code := 1
          stdout := (share files colored name).stdout
          stderr := (share files colored name).stderr ++ failedSummary colored 1 1 }
      else
        { code := 0
          stdout := (share files colored name).stdout
          stderr := (share files colored name).stderr }
  /-- Files that all load leave just their shares, in their order, and the program succeeds if none of them
  fails. Otherwise the summary stands at the end. -/
  together : ∀ names, (∀ name ∈ names, loads files name = true) →
    outcome names =
      if names.countP (fails files) = 0 then
        { code := 0
          stdout := stdoutShares files colored names
          stderr := stderrShares files colored names }
      else
        { code := 1
          stdout := stdoutShares files colored names
          stderr := stderrShares files colored names
            ++ failedSummary colored (names.countP (fails files)) names.length }
  /-- In another order, the same shares stand in that order. The code and what follows the shares are the
  same. -/
  permuted : ∀ names names', names.Perm names' → (∀ name ∈ names, loads files name = true) →
    (names.map (share files colored)).Perm (names'.map (share files colored)) ∧
      (outcome names').code = (outcome names).code ∧
      (outcome names).stdout = stdoutShares files colored names ∧
      (outcome names').stdout = stdoutShares files colored names' ∧
      ∃ ending, (outcome names).stderr = stderrShares files colored names ++ ending ∧
        (outcome names').stderr = stderrShares files colored names' ++ ending
  /-- If a file does not load, the shares are those of the files before the first such file. The program
  fails, also where all of these files pass. -/
  stopped : ∀ names, (∃ name ∈ names, loads files name = false) →
    ∃ before name after e, names = before ++ name :: after ∧
      (∀ name ∈ before, loads files name = true) ∧ (load files name).result = .error e ∧
      outcome names = {
        code := 1
        stdout := stdoutShares files colored before
        stderr := stderrShares files colored before ++ e.render colored }

/-- **Checks.** The files of a check without verbosity fare as they do alone, in whatever order. -/
theorem checks_apart (files : Files) (color : ColorChoice) :
    ChecksApart files (color = .always) (checkOutcome files color) where
  alone := by
    intro name hname
    rw [checkOutcome_of_loads color (by simpa using hname)]
    cases hfails : fails files name with
    | false => simp [hfails, stdoutShares, stderrShares]
    | true => simp [hfails, stdoutShares, stderrShares]
  together := fun _ => checkOutcome_of_loads color
  permuted := by
    intro names names' hperm hloads
    have hloads' : ∀ name ∈ names', loads files name = true :=
      fun name hname => hloads name (hperm.mem_iff.mpr hname)
    refine ⟨hperm.map _, ?_⟩
    rw [checkOutcome_of_loads color hloads, checkOutcome_of_loads color hloads',
      ← hperm.countP_eq, ← hperm.length_eq]
    split
    · exact ⟨rfl, rfl, rfl, "", String.append_empty.symm, String.append_empty.symm⟩
    · exact ⟨rfl, rfl, rfl, _, rfl, rfl⟩
  stopped := by
    intro names hstop
    have hfind : (names.find? fun name => !loads files name).isSome = true := by
      rw [List.find?_isSome]
      simpa using hstop
    obtain ⟨name, hname⟩ := Option.isSome_iff_exists.mp hfind
    obtain ⟨hloads, before, after, rfl, hbefore⟩ := List.find?_eq_some_iff_append.mp hname
    replace hbefore : ∀ name ∈ before, loads files name = true := by simpa using hbefore
    obtain ⟨e, he⟩ := exists_error_of_not_loads (by simpa using hloads)
    exact ⟨before, name, after, e, rfl, hbefore, he, checkOutcome_of_stop color hbefore he after⟩

theorem verdict_point : verdict sampleFiles "point" = .ok (.ok ()) := by
  rw [verdict, load_point]
  rfl

theorem verdict_data :
    verdict sampleFiles "data" = .ok (.error (.typeMismatch "Module" "Configuration")) := by
  rw [verdict, load_data]
  rfl

theorem fails_point : fails sampleFiles "point" = false := by
  rw [fails, verdict_point]

theorem fails_data : fails sampleFiles "data" = true := by
  rw [fails, verdict_data]

theorem loads_point : loads sampleFiles "point" = true := by
  rw [loads, load_point]
  rfl

theorem loads_data : loads sampleFiles "data" = true := by
  rw [loads, load_data]
  rfl

theorem loads_missing : loads sampleFiles "missing" = false := by
  rw [loads, load_missing]
  rfl

/-- A module that passes and a configuration that fails, in both orders, and with a file that is not there. -/
theorem checks_apart_sample :
    (∀ name ∈ ["point", "data"], loads sampleFiles name = true) ∧
      loads sampleFiles "missing" = false ∧
      checkOutcome sampleFiles .never ["point", "data"] = {
        code := 1
        stdout := "point: PASS\n"
        stderr := "Error: Expected a Module but found a Configuration\n"
          ++ " Help: Only source modules can be type checked\n"
          ++ "Error: 1 of 2 files failed the check\n" } ∧
      (checkOutcome sampleFiles .never ["data", "point"]).code = 1 ∧
      (checkOutcome sampleFiles .never ["point", "missing", "data"]).code = 1 := by
  have hapart : ChecksApart sampleFiles false (checkOutcome sampleFiles .never) :=
    checks_apart sampleFiles .never
  have hloads : ∀ name ∈ ["point", "data"], loads sampleFiles name = true := by
    simp [loads_point, loads_data]
  have hpair : checkOutcome sampleFiles .never ["point", "data"] = {
      code := 1
      stdout := "point: PASS\n"
      stderr := "Error: Expected a Module but found a Configuration\n"
        ++ " Help: Only source modules can be type checked\n"
        ++ "Error: 1 of 2 files failed the check\n" } := by
    have hcount : ["point", "data"].countP (fails sampleFiles) = 1 := by
      rw [List.countP_cons, List.countP_singleton, fails_point, fails_data]
      rfl
    have hout : stdoutShares sampleFiles false ["point", "data"] = "point: PASS\n" := by
      simp only [stdoutShares, share, verdict_point, verdict_data, List.map_cons, List.map_nil]
      rfl
    have herr : stderrShares sampleFiles false ["point", "data"]
        = "Error: Expected a Module but found a Configuration\n"
          ++ " Help: Only source modules can be type checked\n" := by
      simp only [stderrShares, share, verdict_point, verdict_data, List.map_cons, List.map_nil]
      rfl
    have hsummary : failedSummary false 1 2 = "Error: 1 of 2 files failed the check\n" := rfl
    have htwo : ["point", "data"].length = 2 := rfl
    rw [hapart.together _ hloads, hcount, if_neg (by decide), hout, herr, htwo, hsummary]
  obtain ⟨_, hcode, _⟩ := hapart.permuted ["point", "data"] ["data", "point"] (.swap ..) hloads
  obtain ⟨_, _, _, _, _, _, _, hstop⟩ :=
    hapart.stopped ["point", "missing", "data"] ⟨"missing", by simp, loads_missing⟩
  refine ⟨hloads, loads_missing, hpair, ?_, ?_⟩
  · rw [hcode, hpair]
  · rw [hstop]

end FrontEnd
