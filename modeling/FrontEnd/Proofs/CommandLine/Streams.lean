import FrontEnd.CommandLine.Run
import FrontEnd.Proofs.Json.Printed

/-!
# The two streams of a run

What outputs leave on the standard output and on the standard error output, as one text each. Records never
reach the standard output, and where the program is not asked for more of them they do not show on the
standard error output either. A run that goes on after another one writes behind it.
-/

namespace FrontEnd

/-- What outputs leave on the standard output. -/
def stdoutOf (outputs : List Output) : String := String.join (outputs.map Output.stdout)

/-- What outputs leave on the standard error output. -/
def stderrOf (verbosity : Nat) (colored : Bool) (outputs : List Output) : String :=
  String.join (outputs.map (Output.stderr verbosity colored))

section

variable (verbosity : Nat) (colored : Bool)

@[simp] theorem stdoutOf_nil : stdoutOf [] = "" := rfl

@[simp] theorem stderrOf_nil : stderrOf verbosity colored [] = "" := rfl

@[simp] theorem stdoutOf_append (outputs more : List Output) :
    stdoutOf (outputs ++ more) = stdoutOf outputs ++ stdoutOf more := by
  rw [stdoutOf, List.map_append, String.join_append]
  rfl

@[simp] theorem stderrOf_append (outputs more : List Output) :
    stderrOf verbosity colored (outputs ++ more)
      = stderrOf verbosity colored outputs ++ stderrOf verbosity colored more := by
  rw [stderrOf, List.map_append, String.join_append]
  rfl

@[simp] theorem stdoutOf_cons (output : Output) (outputs : List Output) :
    stdoutOf (output :: outputs) = output.stdout ++ stdoutOf outputs :=
  String.join_cons

@[simp] theorem stderrOf_cons (output : Output) (outputs : List Output) :
    stderrOf verbosity colored (output :: outputs)
      = output.stderr verbosity colored ++ stderrOf verbosity colored outputs :=
  String.join_cons

/-! ## Records and errors -/

@[simp] theorem stdoutOf_logged (log : List Event) : stdoutOf (logged log) = "" := by
  induction log with
  | nil => rfl
  | cons e log ih =>
    rw [logged, List.map_cons, stdoutOf_cons, ← logged, ih]
    rfl

/-- Without verbosity no record is shown, whatever its level. -/
theorem LogLevel.rank_lt (level : LogLevel) : level.rank < shownFrom 0 := by
  cases level <;> decide

@[simp] theorem stderrOf_logged (log : List Event) : stderrOf 0 colored (logged log) = "" := by
  induction log with
  | nil => rfl
  | cons e log ih =>
    rw [logged, List.map_cons, stderrOf_cons, ← logged, ih, Output.stderr,
      if_neg (Nat.not_le.mpr e.level.rank_lt)]
    rfl

@[simp] theorem stdoutOf_reported (e : LoweringError) : stdoutOf (reported e) = "" := by
  simp [reported, Output.stdout]

@[simp] theorem stderrOf_reported (e : LoweringError) :
    stderrOf 0 colored (reported e) = e.diagnostic.render colored := by
  simp [reported, Output.stderr]

/-! ## Loading -/

variable (files : Files) (file : String)

@[simp] theorem stdoutOf_load : stdoutOf (load files file).outputs = "" := by
  unfold load
  split
  · rfl
  · split
    · exact stdoutOf_logged [.loaded file]
    · rfl

@[simp] theorem stderrOf_load : stderrOf 0 colored (load files file).outputs = "" := by
  unfold load
  split
  · rfl
  · split
    · exact stderrOf_logged colored [.loaded file]
    · rfl

end

theorem fromUTF8?_toUTF8 (text : String) : String.fromUTF8? text.toUTF8 = some text := by
  simp only [String.fromUTF8?, String.toUTF8_eq_toByteArray, dif_pos text.isValidUTF8]
  rfl

/-- A file with the text of a JSON value is loaded as the syntax tree that the value stands for. -/
theorem load_of_pretty {files : Files} {file : String} {json : Json} {tree : SourceTree}
    (hfile : files file = .ok json.pretty.toUTF8) (hprintable : json.isPrintable = true)
    (htree : decodeWhole? json = some tree) : (load files file).result = .ok tree := by
  have htext : files.text file = .ok json.pretty := by
    rw [Files.text, hfile]
    simp only [fromUTF8?_toUTF8]
  have hread : SourceTree.read? json.pretty = some tree := by
    rw [SourceTree.read?, Json.read?_pretty hprintable, Option.bind_some, htree]
  rw [load, htext]
  simp only [hread]

/-- Files to look at: `point` is a module with a struct, `data` is a configuration, and there are no others. -/
def sampleFiles : Files := fun name =>
  if name = "point" then
    .ok (Json.object [("kind", .string "Module"), ("parts", .array [.object [("part", .string "Struct"),
      ("structs", .array [.object [("name", .string "Point"), ("fields", .array [])]])]])]).pretty.toUTF8
  else if name = "data" then .ok (Json.object [("kind", .string "Configuration")]).pretty.toUTF8
  else .error .notFound

/-- The module of the file `point`. -/
def pointModule : Module where
  parts := [.structs {} [{ name := "Point", fields := [] }]]

theorem load_point : (load sampleFiles "point").result = .ok (.module pointModule) :=
  load_of_pretty rfl rfl rfl

theorem load_data : (load sampleFiles "data").result = .ok (.configuration {}) :=
  load_of_pretty rfl rfl rfl

theorem load_missing :
    (load sampleFiles "missing").result = .error (.unreadable "missing" .notFound) := rfl

/-! ## Runs that go on -/

namespace Run

variable {α β : Type} {r : Run α}

theorem andThen_of_ok {a : α} (h : r.result = .ok a) (next : α → Run β) :
    r.andThen next = { outputs := r.outputs ++ (next a).outputs, result := (next a).result } := by
  rw [andThen, h]

theorem andThen_of_error {e : Failure} (h : r.result = .error e) (next : α → Run β) :
    r.andThen next = { outputs := r.outputs, result := .error e } := by
  rw [andThen, h]

end Run

/-! ## Outcomes -/

namespace Request

variable {r : Request} {files : Files}

/-- The outcome of a run that succeeds. -/
theorem outcome_of_ok (h : (r.run files).result = .ok ()) :
    r.outcome files = {
      code := 0
      stdout := stdoutOf (r.run files).outputs
      stderr := stderrOf r.verbosity (r.color = .always) (r.run files).outputs } := by
  simp only [outcome, h]
  rfl

/-- The outcome of a run that fails. Its failure stands at the end. -/
theorem outcome_of_error {e : Failure} (h : (r.run files).result = .error e) :
    r.outcome files = {
      code := 1
      stdout := stdoutOf (r.run files).outputs
      stderr := stderrOf r.verbosity (r.color = .always) (r.run files).outputs
        ++ e.render (r.color = .always) } := by
  simp only [outcome, h]
  rfl

theorem stdout_outcome (r : Request) (files : Files) :
    (r.outcome files).stdout = stdoutOf (r.run files).outputs := by
  cases h : (r.run files).result with
  | ok => rw [outcome_of_ok h]
  | error e => rw [outcome_of_error h]

theorem code_outcome_of_ok_iff {p : Prop} [Decidable p] (h : (r.run files).result = .ok () ↔ p) :
    (r.outcome files).code = if p then 0 else 1 := by
  cases hresult : (r.run files).result with
  | ok =>
    rw [outcome_of_ok hresult, if_pos (h.mp hresult)]
  | error e =>
    have hp : ¬ p := by
      intro hp
      rw [h.mpr hp] at hresult
      cases hresult
    rw [outcome_of_error hresult, if_neg hp]

end Request

end FrontEnd
