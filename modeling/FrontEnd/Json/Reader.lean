import FrontEnd.Json.Token

/-! # Reading JSON

A text holds one value and nothing but blanks around it. The reader takes the tokens one by one and
keeps the arrays and objects that are still open, the innermost first.
-/

namespace FrontEnd.Json

/-- The fields of an object while it is read, last first. A name is none if it is not readable. -/
abbrev OpenFields := List (Option String × Json)

/-- An open array or object around the value that is being read; what it holds so far is last first. -/
inductive Frame where
  | array (items : List Json)
  | object (fields : OpenFields) (name : Option String)

/-- What the reader waits for. -/
inductive Waiting where
  | value
  /-- A value, or the end of an array without items. -/
  | firstItem
  /-- The end of an array, or a separator and another item. -/
  | moreItems (items : List Json)
  /-- A name, or the end of an object without fields. -/
  | firstName
  /-- The name of another field. -/
  | nextName (fields : OpenFields)
  /-- The separator between a name and its value. -/
  | separator (fields : OpenFields) (name : Option String)
  /-- The end of an object, or a separator and another field. -/
  | moreFields (fields : OpenFields)
  /-- Nothing: the value is complete. -/
  | nothing (value : Json)

/-- The object of some fields. All of its names have to be readable. -/
def closeObject (fields : OpenFields) : Json :=
  match fields.reverse.mapM fun field => field.1.map fun name => (name, field.2) with
  | some fields => .object fields
  | none => .unreadable

def ofText : Option String → Json
  | some text => .string text
  | none => .unreadable

def complete (value : Json) : List Frame → List Frame × Waiting
  | [] => ([], .nothing value)
  | .array items :: frames => (frames, .moreItems (value :: items))
  | .object fields name :: frames => (frames, .moreFields ((name, value) :: fields))

def startValue (frames : List Frame) : Token → Option (List Frame × Waiting)
  | .text text => some (complete (ofText text) frames)
  | .scalar value => some (complete value frames)
  | .beginArray => some (frames, .firstItem)
  | .beginObject => some (frames, .firstName)
  | _ => none

def readToken : List Frame × Waiting → Token → Option (List Frame × Waiting)
  | (frames, .value), token => startValue frames token
  | (frames, .firstItem), .endArray => some (complete (.array []) frames)
  | (frames, .firstItem), token => startValue (.array [] :: frames) token
  | (frames, .moreItems items), .valueSeparator => some (.array items :: frames, .value)
  | (frames, .moreItems items), .endArray => some (complete (.array items.reverse) frames)
  | (frames, .firstName), .endObject => some (complete (.object []) frames)
  | (frames, .firstName), .text name => some (frames, .separator [] name)
  | (frames, .nextName fields), .text name => some (frames, .separator fields name)
  | (frames, .separator fields name), .nameSeparator => some (.object fields name :: frames, .value)
  | (frames, .moreFields fields), .valueSeparator => some (frames, .nextName fields)
  | (frames, .moreFields fields), .endObject => some (complete (closeObject fields) frames)
  | _, _ => none

/-- The value that a list of tokens is. -/
def ofTokens? (tokens : List Token) : Option Json :=
  match tokens.foldlM readToken ([], .value) with
  | some ([], .nothing value) => some value
  | _ => none

def read? (text : String) : Option Json :=
  (tokens? text.toList).bind ofTokens?

end FrontEnd.Json
