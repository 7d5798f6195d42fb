import FrontEnd.Json.Basic
import FrontEnd.Text.Lines

/-! # Writing JSON

Two layouts: `compact` puts a value on one line without blanks; `pretty` gives each item and each field
a line of its own, two blanks deeper than what encloses it. Both write the fields in their order,
escape in strings only what has to be, and leave other characters as they are. What stands for nothing is
written as null.
-/

namespace FrontEnd.Json

def hexDigit (n : Nat) : Char :=
  if n < 10 then Char.ofNat (48 + n) else Char.ofNat (87 + n)

def escapeChar (c : Char) : List Char :=
  if c = '\x22' then ['\\', '\x22']
  else if c = '\\' then ['\\', '\\']
  else if c = '\x08' then ['\\', 'b']
  else if c = '\x0c' then ['\\', 'f']
  else if c = '\n' then ['\\', 'n']
  else if c = '\r' then ['\\', 'r']
  else if c = '\t' then ['\\', 't']
  else if c.toNat < 32 then ['\\', 'u', '0', '0', hexDigit (c.toNat / 16), hexDigit (c.toNat % 16)]
  else [c]

def quoted (text : String) : String :=
  "\"" ++ String.ofList (text.toList.flatMap escapeChar) ++ "\""

def numberText : Number → String
  | .integer negative n => (if negative then "-" else "") ++ n.repr
  | .decimal negative digits scale => (if negative then "-" else "") ++ digits.repr ++ "e" ++ scale.repr

/-- The line feed and the blanks in front of a line at a depth. -/
def lineStart (depth : Nat) : String :=
  "\n" ++ Text.blanks (2 * depth)

mutual

def compact : Json → String
  | .null => "null"
  | .bool true => "true"
  | .bool false => "false"
  | .number n => numberText n
  | .string text => quoted text
  | .array items => "[" ++ ",".intercalate (compactItems items) ++ "]"
  | .object fields => "\x7b" ++ ",".intercalate (compactFields fields) ++ "\x7d"
  | .unreadable => "null"

/-- Items, each on one line. -/
def compactItems : List Json → List String
  | [] => []
  | item :: rest => item.compact :: compactItems rest

/-- Fields, each on one line. -/
def compactFields : List (String × Json) → List String
  | [] => []
  | (name, value) :: rest => (quoted name ++ ":" ++ value.compact) :: compactFields rest

end

/-- Items or fields between brackets on lines of their own; the brackets are at a depth. -/
def block (depth : Nat) (first last : String) (items : List String) : String :=
  if items = [] then first ++ last
  else
    first ++ lineStart (depth + 1) ++ ("," ++ lineStart (depth + 1)).intercalate items
      ++ lineStart depth ++ last

mutual

/-- A value that starts on a line at a depth. -/
def prettyAt (depth : Nat) : Json → String
  | .null => "null"
  | .bool true => "true"
  | .bool false => "false"
  | .number n => numberText n
  | .string text => quoted text
  | .array items => block depth "[" "]" (prettyItems (depth + 1) items)
  | .object fields => block depth "\x7b" "\x7d" (prettyFields (depth + 1) fields)
  | .unreadable => "null"

def prettyItems (depth : Nat) : List Json → List String
  | [] => []
  | item :: rest => item.prettyAt depth :: prettyItems depth rest

def prettyFields (depth : Nat) : List (String × Json) → List String
  | [] => []
  | (name, value) :: rest =>
    (quoted name ++ ": " ++ value.prettyAt depth) :: prettyFields depth rest

end

def pretty (value : Json) : String := value.prettyAt 0

end FrontEnd.Json
