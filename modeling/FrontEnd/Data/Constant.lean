import FrontEnd.Data.ValueTree
import FrontEnd.Syntax.SourceTree

/-! # Constants

An assignment of a data file makes a constant: a name, or two names with a dot between them, and the tree of
its value.
-/

namespace FrontEnd

/-- A named tree of data values. The first name is empty where there is only one. -/
structure Constant where
  firstName : String
  secondName : String
  values : NodeStore DataValue

namespace Constant

def name (c : Constant) : String :=
  if c.firstName.isEmpty then c.secondName else c.firstName ++ "." ++ c.secondName

/-- The values of a constant, each group before what it holds. -/
def walked (c : Constant) : List DataValue :=
  c.values.collect .leftDepth c.values.root

/-- The line of a constant: its name and its values. -/
def line (c : Constant) : String :=
  c.name ++ " = " ++ ", ".intercalate (c.walked.map DataValue.describe)

end Constant

namespace Assignment

/-- The two names of the constant that an assignment makes. -/
def names (a : Assignment) : String × String :=
  match a.secondName with
  | some second => (a.firstName, second)
  | none => ("", a.firstName)

def constant (a : Assignment) : Logged Constant :=
  let (firstName, secondName) := a.names
  if secondName.isEmpty then ⟨[], .error (Defect.assignmentUnnamed.errorAt a.position)⟩
  else
    match a.value.tree with
    | ⟨log, .error e⟩ => ⟨log, .error e⟩
    | ⟨log, .ok values⟩ =>
      ⟨log ++ [.constantRead firstName secondName], .ok { firstName, secondName, values }⟩

end Assignment

end FrontEnd
