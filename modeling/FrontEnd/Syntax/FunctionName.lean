import FrontEnd.Json.Record

/-! # Names of functions

A function is named by an identifier, a letter followed by letters, digits and underscores, or else by an
operator sign, which is any other text. Letters and digits are those of ASCII.
-/

namespace FrontEnd

/-- Whether a text is an identifier. -/
def isIdentifier : List Char → Bool
  | [] => false
  | c :: rest => c.isAlpha && rest.all fun c => c.isAlphanum || c == '_'

/-- The name of a function, and whether it is an operator sign. -/
structure FunctionName where
  name : String
  isOperator : Bool
  deriving DecidableEq

namespace FunctionName

/-- A name as it stands in the source: an operator sign unless it is an identifier. -/
def capture (name : String) : FunctionName := { name, isOperator := !isIdentifier name.toList }

instance : Interchange FunctionName where
  encode f := encode f.name
  decode enclosed room json := (decode enclosed room json).map capture

end FunctionName

end FrontEnd
