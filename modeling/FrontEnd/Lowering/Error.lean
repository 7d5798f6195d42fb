import FrontEnd.Diagnostic.Basic
import FrontEnd.Log
import FrontEnd.Syntax.CharLiteral
import FrontEnd.Syntax.Expression

/-! # Why a tree cannot be lowered

`Defect` lists what can be wrong with a node. A `LoweringError` is what is told to the user: of a defect, of
a character literal that is none, or of a tree of the wrong kind.
-/

namespace FrontEnd

/-- What is wrong with a node of a syntax tree. -/
inductive Defect where
  | noImportedNames
  | emptyImportedName
  | structUnnamed
  | functionUnnamed
  | inputUnnamed
  | typeUnnamed
  | patternUnnamed
  | assignmentUnnamed
  /-- An expression of a kind stands where only a category may. -/
  | misplaced (kind : String) (category : Category)
  deriving DecidableEq

namespace Defect

/-- The kind of the node with the defect. -/
def what : Defect → String
  | .noImportedNames => "import"
  | .emptyImportedName => "import"
  | .structUnnamed => "struct"
  | .functionUnnamed => "function"
  | .inputUnnamed => "input"
  | .typeUnnamed => "type"
  | .patternUnnamed => "pattern"
  | .assignmentUnnamed => "assignment"
  | .misplaced .. => "expression"

def reason : Defect → String
  | .noImportedNames => "the list of imported names is empty"
  | .emptyImportedName => "the imported name is empty"
  | .structUnnamed => "the struct has no name"
  | .functionUnnamed => "the function has no name"
  | .inputUnnamed => "the input has no name"
  | .typeUnnamed => "the type has no name"
  | .patternUnnamed => "the pattern has no name"
  | .assignmentUnnamed => "the assignment has no name"
  | .misplaced kind category => "the " ++ kind ++ " cannot be used as a " ++ category.description

end Defect

/-- Why a tree cannot be lowered. -/
inductive LoweringError where
  | typeMismatch (expected found : String)
  | malformed (what : String) (position : Position) (reason : String)
  | literal (error : CharLiteralError)
  deriving DecidableEq

/-- The error of a defect of the node at a position. -/
def Defect.errorAt (defect : Defect) (position : Position) : LoweringError :=
  .malformed defect.what position defect.reason

namespace LoweringError

/-- The error as it is told to the user. -/
def message : LoweringError → String
  | .typeMismatch expected found => "Expected a " ++ expected ++ " but found a " ++ found
  | .malformed what position reason => "Malformed " ++ what ++ " at " ++ position.text ++ ": " ++ reason
  | .literal error => error.message

/-- The position of the node with the error. -/
def position? : LoweringError → Option Position
  | .typeMismatch .. => none
  | .malformed _ position _ => some position
  | .literal error => some error.position

/-- The name of the kind of an error. -/
def kind : LoweringError → String
  | .typeMismatch .. => "TypeMismatch"
  | .malformed .. => "MalformedAst"
  | .literal error => error.fault.name

/-- The diagnostic of an error, without its location. -/
def summary : LoweringError → Diagnostic
  | .typeMismatch expected found =>
    (Diagnostic.error (typeMismatch expected found).message).withHelp
      "Only source modules can be type checked"
  | .malformed what _ reason => (Diagnostic.error ("Malformed " ++ what)).withNote reason
  | .literal error => Diagnostic.error error.message

theorem level_summary (e : LoweringError) : e.summary.level = .error := by cases e <;> rfl

theorem location_summary (e : LoweringError) : e.summary.location = none := by cases e <;> rfl

/-- The diagnostic of an error. It has a location if the position of the error has a line. -/
def diagnostic (e : LoweringError) : Diagnostic :=
  match e.position? with
  | some p =>
    if p.line = 0 then e.summary
    else e.summary.withLocation (.ofCounts p.filename p.line p.column)
  | none => e.summary

/-- What cannot be lowered is always an error, with a location or without. -/
theorem level_diagnostic (e : LoweringError) : e.diagnostic.level = .error := by
  unfold diagnostic
  split
  · split
    · exact e.level_summary
    · exact e.level_summary
  · exact e.level_summary

/-- What is recorded when the diagnostic of an error is made: a position without a line. -/
def diagnosticLog (e : LoweringError) : List Event :=
  match e.position? with
  | some p => if p.line = 0 then [.lineMissing p.filename e.message] else []
  | none => []

end LoweringError

/-- The result of a step that leaves records behind, also when it fails. -/
structure Logged (α : Type) where
  log : List Event
  result : Except LoweringError α

end FrontEnd
