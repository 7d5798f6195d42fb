import FrontEnd.Data.DataValue
import FrontEnd.Syntax.Position

/-! # Log records

What is done to a source file leaves records behind. A record is an event with a level and a topic; its
wording is in one place.
-/

namespace FrontEnd

/-- How much a record matters. -/
inductive LogLevel where
  | trace
  | debug
  | info
  | warn
  deriving DecidableEq

def LogLevel.name : LogLevel → String
  | .trace => "TRACE"
  | .debug => "DEBUG"
  | .info => "INFO"
  | .warn => "WARN"

/-- The place of a level among the levels, the least important at zero. -/
def LogLevel.rank : LogLevel → Nat
  | .trace => 0
  | .debug => 1
  | .info => 2
  | .warn => 3

/-- Something that has been done. -/
inductive Event where
  /-- The syntax tree of a file has been read. -/
  | loaded (file : String)
  /-- A name has been imported. -/
  | imported (name : String)
  /-- A struct has been given an identifier. -/
  | structDeclared (name : String) (id : UInt64)
  /-- A function has been given an identifier. -/
  | functionDeclared (name : String) (id : UInt64)
  /-- A module has been lowered. -/
  | lowered (file : String) (imports declarations : Nat)
  /-- A module has passed the check. -/
  | passed (file : String)
  /-- A value has been read. -/
  | valueRead (value : DataValue) (position : Position)
  /-- The members of a group go to the node around it. -/
  | groupSpliced (position : Position)
  /-- A constant has been read. -/
  | constantRead (firstName secondName : String)
  /-- An error has a position without a line. -/
  | lineMissing (file : String) (error : String)
  deriving DecidableEq

namespace Event

def level : Event → LogLevel
  | .loaded _ => .debug
  | .imported _ => .trace
  | .structDeclared .. => .debug
  | .functionDeclared .. => .debug
  | .lowered .. => .debug
  | .passed _ => .info
  | .valueRead .. => .trace
  | .groupSpliced _ => .trace
  | .constantRead .. => .debug
  | .lineMissing .. => .warn

/-- The topic under which an event is recorded. -/
def topic : Event → String
  | .loaded _ => "deflemma::commands"
  | .imported _ => "deflemma_ir::lower"
  | .structDeclared .. => "deflemma_ir::lower"
  | .functionDeclared .. => "deflemma_ir::lower"
  | .lowered .. => "deflemma_ir::lower"
  | .passed _ => "deflemma_ir::check"
  | .valueRead .. => "deflemma_ir::value"
  | .groupSpliced _ => "deflemma_ir::value"
  | .constantRead .. => "deflemma_ir::config"
  | .lineMissing .. => "deflemma_ir::error"

def message : Event → String
  | .loaded file => "Loaded " ++ file
  | .imported name => "Import " ++ name
  | .structDeclared name id => "Struct " ++ name ++ " has id " ++ id.toNat.repr
  | .functionDeclared name id => "Function " ++ name ++ " has id " ++ id.toNat.repr
  | .lowered file imports declarations =>
    "Lowered " ++ file ++ ": " ++ imports.repr ++ " imports, " ++ declarations.repr ++ " declarations"
  | .passed file => file ++ " passed the check"
  | .valueRead value position => "Value " ++ value.describe ++ " at " ++ position.text
  | .groupSpliced position => "Splicing the group at " ++ position.text
  | .constantRead firstName secondName => "Data config " ++ firstName ++ "." ++ secondName
  | .lineMissing file error => "The syntax tree of " ++ file ++ " has no line for: " ++ error

end Event

end FrontEnd
