import FrontEnd.Syntax.Position

/-! # Character literals

A literal holds one character, written as it is or as a backslash and a letter, with or without quotes
around it. The quotes are taken off only if both are there.
-/

namespace FrontEnd

/-- What is wrong with a character literal. -/
inductive CharFault where
  | emptyChar
  | unknownEscape
  | tooManyChars
  deriving DecidableEq

/-- A character literal that is none: its fault, its own text and where it stands. -/
structure CharLiteralError where
  fault : CharFault
  literal : String
  position : Position
  deriving DecidableEq

namespace CharFault

def name : CharFault → String
  | .emptyChar => "EmptyChar"
  | .unknownEscape => "UnknownEscape"
  | .tooManyChars => "TooManyChars"

def all : List CharFault := [.emptyChar, .unknownEscape, .tooManyChars]

end CharFault

namespace CharLiteralError

/-- The error as it is told to the user. -/
def message (e : CharLiteralError) : String :=
  match e.fault with
  | .emptyChar => "Empty char literal " ++ e.literal ++ " at " ++ e.position.text
  | .unknownEscape =>
    "Unrecognized escape sequence in char literal " ++ e.literal ++ " at " ++ e.position.text
  | .tooManyChars => "Char literal " ++ e.literal ++ " at " ++ e.position.text
    ++ " has more than one character"

def decodeBody (fault : CharFault) (enclosed : Bool) (room : Nat) (json : Json) :
    Option CharLiteralError :=
  match room, json.slots? ["literal", "position"] with
  | room + 1, some [literal, position] => do
    return {
      fault
      literal := ← literal.required (decode enclosed room)
      position := ← position.required (decode enclosed room) }
  | _, _ => none

/-- The fault is the only field of an object, and holds literal and position. -/
instance : Interchange CharLiteralError where
  encode e := .object [(e.fault.name,
    .object [("literal", encode e.literal), ("position", encode e.position)])]
  decode
    | enclosed, room + 1, .object [(name, body)] =>
      (CharFault.all.find? fun fault => fault.name == name).bind fun fault =>
        decodeBody fault enclosed room body
    | _, _, _ => none

end CharLiteralError

namespace CharLiteral

/-- The character of a literal without its quotes, or its fault. -/
def ofBody : List Char → Except CharFault Char
  | [] => .error .emptyChar
  | ['\\'] => .error .unknownEscape
  | ['\\', letter] => escape letter
  | [c] => .ok c
  | _ => .error .tooManyChars
where
  /-- The character that a letter after a backslash stands for. -/
  escape : Char → Except CharFault Char
    | '\x27' => .ok '\x27'
    | '\x22' => .ok '\x22'
    | '\\' => .ok '\\'
    | 'a' => .ok '\x07'
    | 'b' => .ok '\x08'
    | 'f' => .ok '\x0c'
    | 'n' => .ok '\n'
    | 'r' => .ok '\r'
    | 't' => .ok '\t'
    | 'v' => .ok '\x0b'
    | _ => .error .unknownEscape

/-- A literal without its quotes; a literal with fewer than two stays as it is. -/
def body : List Char → List Char
  | '\x27' :: rest =>
    if rest.getLast? = some '\x27' then rest.dropLast else '\x27' :: rest
  | literal => literal

def read (literal : String) (position : Position) : Except CharLiteralError Char :=
  match ofBody (body literal.toList) with
  | .ok c => .ok c
  | .error fault => .error { fault, literal, position }

end CharLiteral

end FrontEnd
