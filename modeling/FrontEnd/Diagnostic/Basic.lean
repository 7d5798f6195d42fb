import FrontEnd.Diagnostic.Location

/-! # Diagnostics

A diagnostic is a message with a level, and possibly a note, a help text and the location of the
declaration that it is about.
-/

namespace FrontEnd

/-- How severe a diagnostic is. -/
inductive Level where
  /-- Something suspicious that stops nothing. -/
  | warning
  /-- A source file that cannot be used. -/
  | error
  deriving DecidableEq

namespace Level

/-- The word in front of a message. -/
def word : Level → String
  | .warning => "Warning"
  | .error => "Error"

/-- All levels, the least severe first. -/
def all : List Level := [.warning, .error]

def compare (l m : Level) : Ordering := Ord.compare (all.idxOf l) (all.idxOf m)

instance : Interchange Level where
  encode level := encode level.word
  decode _ room json :=
    (json.choiceName? room).bind fun name => all.find? fun level => level.word == name

end Level

/-- A report to the user. -/
structure Diagnostic where
  level : Level
  message : String
  note : Option String := none
  help : Option String := none
  location : Option Location := none
  deriving DecidableEq

namespace Diagnostic

/-- An error with nothing but its message. -/
def error (message : String) : Diagnostic := { level := .error, message }

/-- A warning with nothing but its message. -/
def warning (message : String) : Diagnostic := { level := .warning, message }

/-- The diagnostic with a note, in place of the one that it had. -/
def withNote (d : Diagnostic) (note : String) : Diagnostic := { d with note := some note }

/-- The diagnostic with a help text, in place of the one that it had. -/
def withHelp (d : Diagnostic) (help : String) : Diagnostic := { d with help := some help }

/-- The diagnostic with a location, in place of the one that it had. -/
def withLocation (d : Diagnostic) (location : Location) : Diagnostic :=
  { d with location := some location }

instance : Interchange Diagnostic where
  encode d := .object [
    ("level", encode d.level), ("message", encode d.message), ("note", encodeOption d.note),
    ("help", encodeOption d.help), ("position", encodeOption d.location)]
  decode
    | enclosed, room + 1, json =>
      match json.slots? ["level", "message", "note", "help", "position"] with
      | some [level, message, note, help, location] => do
        return {
          level := ← level.required (decode enclosed room)
          message := ← message.required (decode enclosed room)
          note := ← note.nullable (decode enclosed room)
          help := ← help.nullable (decode enclosed room)
          location := ← location.nullable (decode enclosed room) }
      | _ => none
    | _, _, _ => none

end Diagnostic

/-- The diagnostics that were reported for some files, in their order. -/
structure DiagnosticList where
  diagnostics : List Diagnostic := []
  deriving DecidableEq

namespace DiagnosticList

def add (l : DiagnosticList) (d : Diagnostic) : DiagnosticList := ⟨l.diagnostics ++ [d]⟩

/-- Whether one of the diagnostics is an error. -/
def hasErrors (l : DiagnosticList) : Bool := l.diagnostics.any fun d => d.level = .error

/-- A list of nothing but errors has one unless it is empty. -/
theorem hasErrors_eq_false_iff {l : DiagnosticList} (h : ∀ d ∈ l.diagnostics, d.level = .error) :
    l.hasErrors = false ↔ l.diagnostics = [] := by
  rw [hasErrors, List.any_eq_false, List.eq_nil_iff_forall_not_mem]
  constructor
  · intro hnone d hd
    exact hnone d hd (decide_eq_true (h d hd))
  · intro hempty d hd
    exact absurd hd (hempty d)

instance : Interchange DiagnosticList where
  encode l := .object [("diagnostics", encode l.diagnostics)]
  decode
    | enclosed, room + 1, json =>
      match json.slots? ["diagnostics"] with
      | some [diagnostics] => do
        return ⟨← diagnostics.required (decode enclosed room)⟩
      | _ => none
    | _, _, _ => none

end DiagnosticList

end FrontEnd
