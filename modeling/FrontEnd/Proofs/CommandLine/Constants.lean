import FrontEnd.Proofs.CommandLine.Streams
import FrontEnd.Proofs.Data.Constant
import FrontEnd.Proofs.Data.ValueTree
import Mathlib.Data.List.TakeWhile

/-!
# Runs that write constants

Such a run writes a line for each assignment in front of the first thing that stops it, and no more.

1. The line of a constant is made of its name, the data value of the value itself and those of the scalars
   in it, however deep (`Assignment.showsAs_line`).
2. `dataSteps` lays the files out as one row of assignments, with a gap for each file that is no data file.
   The assignments of a file and the files of a run both end at the first step that is not accepted, and
   what was written stays (`writeConstants_shows`, `runData_shows`).
-/

namespace FrontEnd

/-! ## Trees -/

namespace Value

/-- What is shown of a value: the value itself, and the scalars in it if it is a group. -/
def shown (v : Value) : List Value := v :: leavesOfAll v.members

/-- The tree of a value is a root with the data values of what else is shown of it. -/
theorem isStar_of_tree {v : Value} {store : NodeStore DataValue} (h : v.tree.result = .ok store) :
    ∃ root data, v.shown.map dataValue = (root :: data).map .ok ∧
      (Cursor.shared store store.root).IsStar root data := by
  cases v with
  | scalar kind position text =>
    rw [result_tree_scalar] at h
    obtain ⟨root, hroot, rfl⟩ := (map_eq_ok_iff _ _ store).mp h
    exact ⟨root, [], congrArg (fun result => [result]) hroot, NodeStore.isStar_foldl_addChild root []⟩
  | group kind position members =>
    rw [result_tree_group] at h
    obtain ⟨data, hdata, rfl⟩ := (map_eq_ok_iff _ _ store).mp h
    exact ⟨_, data, congrArg (_ :: ·) ((mapM_eq_ok_iff _ _ _).mp hdata),
      NodeStore.isStar_foldl_addChild _ data⟩

end Value

/-! ## Lines -/

/-- An assignment makes a constant that is written as a line: its name, and the texts of all that is shown of
its value. -/
def Assignment.ShowsAs (a : Assignment) (line : String) : Prop :=
  ∃ (c : Constant) (data : List DataValue), a.constant.result = .ok c ∧
    a.value.shown.map Value.dataValue = data.map .ok ∧
    line = c.name ++ " = " ++ ", ".intercalate (data.map DataValue.describe)

theorem Assignment.showsAs_line {a : Assignment} {c : Constant} (h : a.constant.result = .ok c) :
    a.ShowsAs c.line := by
  obtain ⟨root, data, hdata, hstar⟩ := Value.isStar_of_tree (result_tree_of_constant h).1
  have hwalked : c.walked = root :: data := hstar.leftDepth.trans hstar.allData
  exact ⟨c, root :: data, h, hdata, by rw [Constant.line, hwalked]⟩

/-- There is one line at most. -/
theorem Assignment.ShowsAs.unique {a : Assignment} {line line' : String} (h : a.ShowsAs line)
    (h' : a.ShowsAs line') : line = line' := by
  obtain ⟨c, data, hc, hdata, rfl⟩ := h
  obtain ⟨c', data', hc', hdata', rfl⟩ := h'
  obtain rfl : c = c' := Except.ok.inj (hc.symm.trans hc')
  obtain rfl : data = data' := by
    rw [hdata] at hdata'
    exact List.map_injective_iff.mpr (fun _ _ => Except.ok.inj) hdata'
  rfl

/-! ## Steps -/

/-- What a run over data files goes through: the assignments of the files one after the other, and nothing in
the place of a file that does not load or is no data file. -/
def dataSteps (files : Files) (names : List String) : List (Option Assignment) :=
  names.flatMap fun name =>
    match (load files name).result with
    | .ok (.configuration c) => c.assignments.map some
    | _ => [none]

/-- Whether a run goes on behind a step. -/
def accepted : Option Assignment → Bool
  | some a => a.constant.result.isOk
  | none => false

/-- The lines that steps are written as. -/
def ShowAs (steps : List (Option Assignment)) (lines : List String) : Prop :=
  List.Forall₂ (fun step line => ∃ a, step = some a ∧ a.ShowsAs line) steps lines

/-- What a run leaves that goes through some steps: the lines of those in front of the first one that is not
accepted. It succeeds if there is no such step. -/
structure Shows (steps : List (Option Assignment)) (run : Run Unit) (lines : List String) : Prop where
  showAs : ShowAs (steps.takeWhile accepted) lines
  stdout_eq : stdoutOf run.outputs = String.join (lines.map (· ++ "\n"))
  ok_iff : run.result = .ok () ↔ ∀ step ∈ steps, accepted step = true

namespace Shows

variable {steps more : List (Option Assignment)} {run next : Run Unit} {lines lines' : List String}

/-- A run that goes on after another one goes through the steps of both. -/
theorem andThen (h : Shows steps run lines) (h' : Shows more next lines') :
    ∃ all, Shows (steps ++ more) (run.andThen fun _ => next) all := by
  cases hresult : run.result with
  | ok =>
    have hall := h.ok_iff.mp hresult
    have hlines := h.showAs
    rw [List.takeWhile_eq_self_iff.mpr hall] at hlines
    rw [Run.andThen_of_ok hresult]
    refine ⟨lines ++ lines', ?_, ?_, ?_⟩
    · rw [List.takeWhile_append_of_pos hall]
      exact List.rel_append hlines h'.showAs
    · rw [stdoutOf_append, h.stdout_eq, h'.stdout_eq, List.map_append, String.join_append]
    · rw [List.forall_mem_append, h'.ok_iff]
      exact (and_iff_right hall).symm
  | error e =>
    have hsome : ¬ ∀ step ∈ steps, accepted step = true := by
      rw [← h.ok_iff, hresult]
      exact nofun
    have hshort : (steps.takeWhile accepted).length ≠ steps.length := by
      intro hlength
      exact hsome (List.takeWhile_eq_self_iff.mp ((List.takeWhile_prefix _).eq_of_length hlength))
    rw [Run.andThen_of_error hresult]
    refine ⟨lines, ?_, h.stdout_eq, ?_⟩
    · rw [List.takeWhile_append, if_neg hshort]
      exact h.showAs
    · rw [List.forall_mem_append]
      exact ⟨nofun, fun hall => absurd hall.1 hsome⟩

/-- Loading a file writes nothing. -/
theorem of_load {files : Files} {file : String} {tree : SourceTree} {run : SourceTree → Run Unit}
    (hload : (load files file).result = .ok tree) (h : Shows steps (run tree) lines) :
    Shows steps ((load files file).andThen run) lines := by
  rw [Run.andThen_of_ok hload]
  refine ⟨h.showAs, ?_, h.ok_iff⟩
  rw [stdoutOf_append, stdoutOf_load, String.empty_append, h.stdout_eq]

/-- A run that stops at once goes through no step. -/
theorem of_stop {e : Failure} (hout : stdoutOf run.outputs = "") (hresult : run.result = .error e)
    {step : Option Assignment} (hstep : accepted step = false) (rest : List (Option Assignment)) :
    Shows (step :: rest) run [] := by
  refine ⟨?_, hout, ?_⟩
  · rw [List.takeWhile_cons_of_neg (by simp [hstep])]
    exact .nil
  · rw [hresult, List.forall_mem_cons, hstep]
    exact ⟨nofun, fun h => absurd h.1 nofun⟩

end Shows

theorem writeConstants_shows (file : String) (as : List Assignment) :
    ∃ lines, Shows (as.map some) (writeConstants file as) lines := by
  induction as with
  | nil => exact ⟨[], .nil, rfl, by simp [writeConstants]⟩
  | cons a rest ih =>
    rcases hconstant : a.constant with ⟨log, result⟩
    have haccepted : accepted (some a) = result.isOk := by rw [accepted, hconstant]
    rw [writeConstants, hconstant, List.map_cons]
    cases result with
    | error e => exact ⟨[], .of_stop (by simp) rfl haccepted _⟩
    | ok c =>
      obtain ⟨lines, h⟩ := ih
      have hshows : a.ShowsAs c.line := Assignment.showsAs_line (by rw [hconstant])
      refine ⟨c.line :: lines, ?_, ?_, ?_⟩
      · rw [List.takeWhile_cons_of_pos haccepted]
        exact .cons ⟨a, rfl, hshows⟩ h.showAs
      · rw [List.map_cons, String.join_cons, ← h.stdout_eq]
        simp [Output.stdout]
      · rw [List.forall_mem_cons, ← h.ok_iff]
        exact (and_iff_right haccepted).symm

/-- **The run.** It goes through the assignments of all files. -/
theorem runData_shows (files : Files) (names : List String) :
    ∃ lines, Shows (dataSteps files names) (runData files names) lines := by
  induction names with
  | nil => exact ⟨[], .nil, rfl, by simp [runData, dataSteps]⟩
  | cons file rest ih =>
    obtain ⟨more, hmore⟩ := ih
    rw [runData, dataSteps, List.flatMap_cons, ← dataSteps]
    cases hload : (load files file).result with
    | error e =>
      rw [Run.andThen_of_error hload]
      exact ⟨[], .of_stop (stdoutOf_load files file) rfl rfl _⟩
    | ok tree =>
      cases tree with
      | module m => exact ⟨[], .of_load hload (.of_stop rfl rfl rfl _)⟩
      | configuration c =>
        obtain ⟨lines, hlines⟩ := writeConstants_shows file c.assignments
        obtain ⟨all, hall⟩ := hlines.andThen hmore
        exact ⟨all, .of_load hload hall⟩

/-! ## Outcomes -/

/-- What the program leaves behind that has gone through some data files. -/
structure LeavesLines (files : Files) (names : List String) (outcome : Outcome) (lines : List String) :
    Prop where
  /-- The standard output is the lines. -/
  stdout_eq : outcome.stdout = String.join (lines.map (· ++ "\n"))
  /-- They are those of the assignments in front of the first one that makes no constant, and in front of the
  first file that is no data file. -/
  showAs : ShowAs ((dataSteps files names).takeWhile accepted) lines
  /-- Of a file that is stopped in the middle, the lines in front stay. -/
  kept : ∀ before file after c as a as', names = before ++ file :: after →
    (load files file).result = .ok (.configuration c) → c.assignments = as ++ a :: as' →
    (∀ step ∈ dataSteps files before ++ as.map some, accepted step = true) → accepted (some a) = false →
    ShowAs (dataSteps files before ++ as.map some) lines
  /-- The program succeeds if it goes through all steps, and fails otherwise. -/
  code_eq : outcome.code = if ∀ step ∈ dataSteps files names, accepted step = true then 0 else 1

theorem takeWhile_dataSteps {files : Files} {before after : List String} {file : String} {c : Configuration}
    {as as' : List Assignment} {a : Assignment} (hload : (load files file).result = .ok (.configuration c))
    (hassignments : c.assignments = as ++ a :: as')
    (hbefore : ∀ step ∈ dataSteps files before ++ as.map some, accepted step = true)
    (hstop : accepted (some a) = false) :
    (dataSteps files (before ++ file :: after)).takeWhile accepted
      = dataSteps files before ++ as.map some := by
  have hsteps : dataSteps files (before ++ file :: after) = (dataSteps files before ++ as.map some)
      ++ some a :: (as'.map some ++ dataSteps files after) := by
    simp only [dataSteps, List.flatMap_append, List.flatMap_cons, hload, hassignments, List.map_append,
      List.map_cons, List.append_assoc, List.cons_append]
  rw [hsteps, List.takeWhile_append_of_pos hbefore, List.takeWhile_cons_of_neg (by simp [hstop]),
    List.append_nil]

/-- **Constants.** However much the program is asked to record and in whatever colours, it leaves a line for
each assignment in front of the first thing that stops it. -/
theorem exists_lines_of_data (files : Files) (names : List String) (verbosity : Nat) (color : ColorChoice) :
    ∃ lines, LeavesLines files names
      (Request.outcome { verbosity, color, command := .data, files := names } files) lines := by
  obtain ⟨lines, h⟩ := runData_shows files names
  refine ⟨lines, ?_, h.showAs, ?_, Request.code_outcome_of_ok_iff h.ok_iff⟩
  · rw [Request.stdout_outcome]
    exact h.stdout_eq
  · rintro before file after c as a as' rfl hload hassignments hbefore hstop
    rw [← takeWhile_dataSteps hload hassignments hbefore hstop]
    exact h.showAs

/-- Data files to look at: the value of `plain` holds a group in a group, that of `feed` is a character literal
for the line feed. -/
def sampleConstants : Files := fun name =>
  if name = "plain" then
    .ok (Json.object [("kind", .string "Configuration"), ("assignments", .array [.object [
      ("first_name", .string "server"), ("second_name", .string "ports"),
      ("value", .object [("kind", .string "List"), ("values", .array [
        .object [("kind", .string "Int"), ("value", .string "80")],
        .object [("kind", .string "Struct"), ("fields", .array [
          .object [("kind", .string "Char"), ("value", .string "'a'")]])]])])]])]).pretty.toUTF8
  else if name = "feed" then
    .ok (Json.object [("kind", .string "Configuration"), ("assignments", .array [.object [
      ("first_name", .string "feed"),
      ("value", .object [("kind", .string "Char"), ("value", .string "'\\n'")])]])]).pretty.toUTF8
  else .error .notFound

/-- The assignment of the file `plain`. -/
def plainAssignment : Assignment where
  firstName := "server"
  secondName := some "ports"
  value := .group .list {} [.scalar .int {} "80", .group .struct {} [.scalar .char {} "'a'"]]

/-- The assignment of the file `feed`. -/
def feedAssignment : Assignment where
  firstName := "feed"
  value := .scalar .char {} "'\\n'"

theorem load_plain :
    (load sampleConstants "plain").result = .ok (.configuration { assignments := [plainAssignment] }) :=
  load_of_pretty rfl rfl rfl

theorem load_feed :
    (load sampleConstants "feed").result = .ok (.configuration { assignments := [feedAssignment] }) :=
  load_of_pretty rfl rfl rfl

theorem showsAs_plain : plainAssignment.ShowsAs "server.ports = LIST, INTEGER(80), CHAR(a)" :=
  ⟨_, [⟨.list, ""⟩, ⟨.integer, "80"⟩, ⟨.char, "a"⟩], rfl, rfl, rfl⟩

theorem showsAs_feed : feedAssignment.ShowsAs "feed = CHAR(\n)" :=
  ⟨_, [⟨.char, "\n"⟩], rfl, rfl, rfl⟩

/-- Two data files, and one behind them that is not there. -/
theorem lines_sample :
    ∃ lines, LeavesLines sampleConstants ["plain", "feed", "missing"]
        (Request.outcome ⟨1, .always, .data, ["plain", "feed", "missing"]⟩ sampleConstants) lines ∧
      lines = ["server.ports = LIST, INTEGER(80), CHAR(a)", "feed = CHAR(\n)"] ∧
      (Request.outcome ⟨1, .always, .data, ["plain", "feed", "missing"]⟩ sampleConstants).code = 1 := by
  obtain ⟨lines, h⟩ := exists_lines_of_data sampleConstants ["plain", "feed", "missing"] 1 .always
  have hmissing : (load sampleConstants "missing").result = .error (.unreadable "missing" .notFound) := rfl
  have hsteps : dataSteps sampleConstants ["plain", "feed", "missing"]
      = [some plainAssignment, some feedAssignment, none] := by
    simp [dataSteps, load_plain, load_feed, hmissing]
  have htake : [some plainAssignment, some feedAssignment, none].takeWhile accepted
      = [some plainAssignment, some feedAssignment] := rfl
  have hlines := h.showAs
  have hcode := h.code_eq
  rw [hsteps, htake] at hlines
  rw [hsteps, if_neg (by simp [accepted])] at hcode
  obtain ⟨first, _, ⟨_, ⟨⟩, hplain⟩, hrest, rfl⟩ := List.forall₂_cons_left_iff.mp hlines
  obtain ⟨second, _, ⟨_, ⟨⟩, hfeed⟩, hnil, rfl⟩ := List.forall₂_cons_left_iff.mp hrest
  obtain rfl := List.forall₂_nil_left_iff.mp hnil
  exact ⟨_, h, by rw [hplain.unique showsAs_plain, hfeed.unique showsAs_feed], hcode⟩

/-! ## Line feeds -/

theorem mem_intercalate {c : Char} {separator : String} (hc : c ∉ separator.toList) (texts : List String) :
    c ∈ (separator.intercalate texts).toList ↔ ∃ text ∈ texts, c ∈ text.toList := by
  induction texts with
  | nil => simp
  | cons text rest ih =>
    cases rest with
    | nil => simp
    | cons next rest =>
      rw [String.intercalate_cons_cons, String.toList_append, String.toList_append, List.mem_append,
        List.mem_append, ih, or_iff_left hc]
      simp

theorem DataValue.feed_mem_describe (v : DataValue) :
    '\n' ∈ v.describe.toList ↔ '\n' ∈ v.text.toList := by
  have hname : '\n' ∉ v.typeId.name.toList := by
    cases v.typeId <;> decide
  rw [describe]
  split
  · rename_i hempty
    rw [String.isEmpty_iff.mp hempty]
    simp [hname]
  · simp [hname]

/-- The line feeds of some lines are one for each line, and those in them. -/
theorem count_feeds (lines : List String) :
    (String.join (lines.map (· ++ "\n"))).toList.count '\n'
      = lines.length + (lines.flatMap String.toList).count '\n' := by
  induction lines with
  | nil => rfl
  | cons line rest ih =>
    have hfeed : "\n".toList.count '\n' = 1 := rfl
    rw [List.map_cons, String.join_cons, String.toList_append, String.toList_append, List.count_append,
      List.count_append, ih, hfeed, List.flatMap_cons, List.count_append, List.length_cons]
    omega

theorem count_feeds_eq_length_iff (lines : List String) :
    (String.join (lines.map (· ++ "\n"))).toList.count '\n' = lines.length ↔
      ∀ line ∈ lines, '\n' ∉ line.toList := by
  rw [count_feeds, Nat.add_eq_left, List.count_eq_zero, List.mem_flatMap]
  simp

/-- Whether a line feed stands in what is shown of a scalar: in the text it is written with, or, where it is a
character literal, as the character that it stands for. -/
def Value.ShowsFeed : Value → Prop
  | .scalar .char position text => CharLiteral.read text position = .ok '\n'
  | .scalar _ _ text => '\n' ∈ text.toList
  | .group .. => False

instance : DecidablePred Value.ShowsFeed
  | .scalar .char position text => inferInstanceAs (Decidable (CharLiteral.read text position = .ok '\n'))
  | .scalar .bool _ text | .scalar .float _ text | .scalar .int _ text | .scalar .string _ text =>
    inferInstanceAs (Decidable ('\n' ∈ text.toList))
  | .group .. => inferInstanceAs (Decidable False)

/-- Whether a line feed stands in what is shown of an assignment: in one of its names or in a scalar. -/
def Assignment.ShowsFeed (a : Assignment) : Prop :=
  '\n' ∈ a.firstName.toList ∨ (∃ second ∈ a.secondName, '\n' ∈ second.toList) ∨
    ∃ leaf ∈ a.value.leaves, leaf.ShowsFeed

instance (a : Assignment) : Decidable a.ShowsFeed :=
  inferInstanceAs (Decidable (_ ∨ _ ∨ ∃ leaf ∈ a.value.leaves, leaf.ShowsFeed))

theorem Value.showsFeed_iff (v : Value) :
    v.ShowsFeed ↔ ∃ data, v.dataValue = .ok data ∧ '\n' ∈ data.text.toList := by
  cases v with
  | group kind position members => simp [ShowsFeed, dataValue, DataValue.group]
  | scalar kind position text =>
    cases kind with
    | char =>
      rw [ShowsFeed, dataValue, scalarText]
      cases CharLiteral.read text position with
      | error e => simp [Except.map]
      | ok c => simp [Except.map, eq_comm]
    | _ => simp [ShowsFeed, dataValue, scalarText, Except.map]

theorem Value.exists_shown_showsFeed_iff (v : Value) :
    (∃ w ∈ v.shown, w.ShowsFeed) ↔ ∃ leaf ∈ v.leaves, leaf.ShowsFeed := by
  cases v with
  | scalar kind position text => rfl
  | group kind position members =>
    rw [shown, List.exists_mem_cons_iff]
    exact or_iff_right id

theorem Constant.feed_mem_name (c : Constant) :
    '\n' ∈ c.name.toList ↔ '\n' ∈ c.firstName.toList ∨ '\n' ∈ c.secondName.toList := by
  rw [name]
  split
  · rename_i hempty
    rw [String.isEmpty_iff.mp hempty]
    simp
  · simp

/-- A line feed stands in the line of an assignment where it is shown of it. -/
theorem Assignment.ShowsAs.feed_mem_iff {a : Assignment} {line : String} (h : a.ShowsAs line) :
    '\n' ∈ line.toList ↔ a.ShowsFeed := by
  obtain ⟨c, data, hc, hdata, rfl⟩ := h
  have hname : '\n' ∈ c.name.toList ↔
      '\n' ∈ a.firstName.toList ∨ ∃ second ∈ a.secondName, '\n' ∈ second.toList := by
    rw [c.feed_mem_name, ← mem_names_iff, ← (result_tree_of_constant hc).2]
  have hmem : ∀ d, d ∈ data ↔ ∃ v ∈ a.value.shown, v.dataValue = .ok d := by
    intro d
    have heq : (Except.ok d : Except LoweringError DataValue) ∈ a.value.shown.map Value.dataValue ↔
        d ∈ data := by
      rw [hdata]
      simp
    rw [← heq, List.mem_map]
  have htexts : (∃ text ∈ data.map DataValue.describe, '\n' ∈ text.toList) ↔
      ∃ leaf ∈ a.value.leaves, leaf.ShowsFeed := by
    rw [← Value.exists_shown_showsFeed_iff]
    simp only [List.mem_map, exists_exists_and_eq_and, DataValue.feed_mem_describe, hmem, Value.showsFeed_iff]
    constructor
    · rintro ⟨d, ⟨v, hv, hd⟩, hfeed⟩
      exact ⟨v, hv, d, hd, hfeed⟩
    · rintro ⟨v, hv, d, hd, hfeed⟩
      exact ⟨d, ⟨v, hv, hd⟩, hfeed⟩
  have hequals : '\n' ∉ " = ".toList := by decide
  rw [String.toList_append, String.toList_append, List.mem_append, List.mem_append,
    mem_intercalate (by decide), htexts, hname, ShowsFeed, or_iff_left hequals, or_assoc]

/-- The assignments of all data files. -/
def assignmentsOf (files : Files) (names : List String) : List Assignment :=
  names.flatMap fun name =>
    match (load files name).result with
    | .ok (.configuration c) => c.assignments
    | _ => []

theorem dataSteps_eq_of_accepted {files : Files} {names : List String}
    (h : ∀ step ∈ dataSteps files names, accepted step = true) :
    dataSteps files names = (assignmentsOf files names).map some := by
  induction names with
  | nil => rfl
  | cons file rest ih =>
    rw [dataSteps, List.flatMap_cons, ← dataSteps] at h ⊢
    rw [List.forall_mem_append] at h
    rw [assignmentsOf, List.flatMap_cons, ← assignmentsOf, List.map_append, ← ih h.2]
    have hfile := h.1
    split at hfile
    · rfl
    · cases hfile none (List.mem_singleton.mpr rfl)

theorem forall_feed_notMem_iff {as : List Assignment} {lines : List String}
    (h : List.Forall₂ Assignment.ShowsAs as lines) :
    (∀ line ∈ lines, '\n' ∉ line.toList) ↔ ∀ a ∈ as, ¬ a.ShowsFeed := by
  induction h with
  | nil => simp
  | cons hshows _ ih => rw [List.forall_mem_cons, List.forall_mem_cons, hshows.feed_mem_iff, ih]

section

variable {files : Files} {names : List String} {verbosity : Nat} {color : ColorChoice}

/-- A run that succeeds writes the lines of all assignments. -/
theorem exists_lines_of_code_eq_zero
    (h : (Request.outcome { verbosity, color, command := .data, files := names } files).code = 0) :
    ∃ lines, List.Forall₂ Assignment.ShowsAs (assignmentsOf files names) lines ∧
      (Request.outcome { verbosity, color, command := .data, files := names } files).stdout
        = String.join (lines.map (· ++ "\n")) := by
  obtain ⟨lines, hrun⟩ := runData_shows files names
  have hall : ∀ step ∈ dataSteps files names, accepted step = true := by
    by_contra hstop
    have hcode : (Request.outcome ⟨verbosity, color, .data, names⟩ files).code = _ :=
      Request.code_outcome_of_ok_iff hrun.ok_iff
    rw [hcode, if_neg hstop] at h
    cases h
  have hlines := hrun.showAs
  rw [List.takeWhile_eq_self_iff.mpr hall, dataSteps_eq_of_accepted hall, ShowAs,
    List.forall₂_map_left_iff] at hlines
  refine ⟨lines, hlines.imp fun a line => ?_, ?_⟩
  · rintro ⟨_, heq, hshows⟩
    exact Option.some.inj heq ▸ hshows
  · rw [Request.stdout_outcome]
    exact hrun.stdout_eq

/-- **Line feeds.** A run over data files that succeeds writes one line feed for each assignment, unless one
is shown of an assignment. -/
theorem count_feeds_eq_length_assignments_iff
    (h : (Request.outcome { verbosity, color, command := .data, files := names } files).code = 0) :
    (Request.outcome { verbosity, color, command := .data, files := names } files).stdout.toList.count '\n'
        = (assignmentsOf files names).length ↔
      ∀ a ∈ assignmentsOf files names, ¬ a.ShowsFeed := by
  obtain ⟨lines, hlines, hout⟩ := exists_lines_of_code_eq_zero h
  rw [hout, hlines.length_eq, count_feeds_eq_length_iff, forall_feed_notMem_iff hlines]

end

theorem run_plain : (Request.run ⟨0, .auto, .data, ["plain"]⟩ sampleConstants).result = .ok () := by
  rw [Request.run, runData, Run.andThen_of_ok load_plain]
  rfl

/-- A value with a group in a group, and no line feed. -/
theorem count_feeds_plain :
    (Request.outcome ⟨0, .auto, .data, ["plain"]⟩ sampleConstants).code = 0 ∧
      (Request.outcome ⟨0, .auto, .data, ["plain"]⟩ sampleConstants).stdout.toList.count '\n' = 1 := by
  have hcode : (Request.outcome ⟨0, .auto, .data, ["plain"]⟩ sampleConstants).code = 0 := by
    rw [Request.outcome_of_ok run_plain]
  have hassignments : assignmentsOf sampleConstants ["plain"] = [plainAssignment] := by
    simp [assignmentsOf, load_plain]
  have hcount := count_feeds_eq_length_assignments_iff hcode
  rw [hassignments] at hcount
  exact ⟨hcode, hcount.mpr (by decide)⟩

/-- The line of a character literal for the line feed goes over two lines. -/
theorem count_feeds_feed :
    (Request.outcome ⟨0, .auto, .data, ["feed"]⟩ sampleConstants).code = 0 ∧
      (assignmentsOf sampleConstants ["feed"]).length = 1 ∧
      (Request.outcome ⟨0, .auto, .data, ["feed"]⟩ sampleConstants).stdout.toList.count '\n' ≠ 1 := by
  have hrun : (Request.run ⟨0, .auto, .data, ["feed"]⟩ sampleConstants).result = .ok () := by
    rw [Request.run, runData, Run.andThen_of_ok load_feed]
    rfl
  have hcode : (Request.outcome ⟨0, .auto, .data, ["feed"]⟩ sampleConstants).code = 0 := by
    rw [Request.outcome_of_ok hrun]
  have hassignments : assignmentsOf sampleConstants ["feed"] = [feedAssignment] := by
    simp [assignmentsOf, load_feed]
  have hfeed : feedAssignment.ShowsFeed := by decide
  obtain ⟨lines, hlines, hout⟩ := exists_lines_of_code_eq_zero hcode
  have hlength : lines.length = 1 := by rw [← hlines.length_eq, hassignments, List.length_singleton]
  refine ⟨hcode, by rw [hassignments, List.length_singleton], ?_⟩
  rw [hout, ← hlength, Ne, count_feeds_eq_length_iff, forall_feed_notMem_iff hlines, hassignments]
  exact fun hnone => hnone _ (List.mem_singleton.mpr rfl) hfeed

end FrontEnd
