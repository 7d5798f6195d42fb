import FrontEnd.Json.Basic

/-! # Typed JSON

How records, variants and lists are read from JSON values and written as such. `Interchange` holds the
two directions for a type.

A record has a keyed form, an object with its fields in any order, and a positional form, an array of its
fields in the declared order. A variant is a record with a tag field, or with its tag in front of the
positional fields. Writing always takes the keyed form and leaves no field out.

Reading counts nesting: `room` is how many more arrays and objects may open. Only what is read counts, so
a field that a record skips does not, and need not be readable; a variant that nothing tagged encloses is
the exception, all of it counts. `enclosed` says whether a variant is around the value, and then a tag may be a number too.
-/

namespace FrontEnd

/-- Types whose values travel as JSON. -/
class Interchange (α : Type) where
  encode : α → Json
  decode : (enclosed : Bool) → (room : Nat) → Json → Option α

export Interchange (encode decode)

/-- The deepest nesting that a reader follows. -/
def nestingLimit : Nat := 127

/-- The value that a whole JSON value stands for. -/
def decodeWhole? {α : Type} [Interchange α] (json : Json) : Option α :=
  decode false nestingLimit json

namespace Json

/-! ## Fields of a record -/

/-- What a record holds for one of its fields. -/
inductive Slot where
  | given (value : Json)
  /-- A keyed record without the field. -/
  | absent
  /-- A positional record that ends before the field. -/
  | ended

/-- What a value holds for the fields of a record. A field of the record comes once at most, other fields
are skipped, and a positional record is no longer than its fields. -/
def slots? (names : List String) : Json → Option (List Slot)
  | .object fields =>
    if names.all fun name => (fields.filter fun field => field.1 == name).length ≤ 1 then
      some (names.map fun name => (fields.lookup name).elim .absent .given)
    else none
  | .array items =>
    if items.length ≤ names.length then
      some (items.map .given ++ List.replicate (names.length - items.length) .ended)
    else none
  | _ => none

namespace Slot

variable {α : Type}

/-- A field that has to be there. -/
def required (read : Json → Option α) : Slot → Option α
  | .given value => read value
  | _ => none

/-- A field with a value that stands for it where it is left out. -/
def orElse (fallback : α) (read : Json → Option α) : Slot → Option α
  | .given value => read value
  | _ => some fallback

/-- A field that may be null. A keyed record may leave it out. -/
def nullable (read : Json → Option α) : Slot → Option (Option α)
  | .given .null => some none
  | .given value => (read value).map some
  | .absent => some none
  | .ended => none

/-- A field that may be null, and that any record may leave out. -/
def nullableOrElse (read : Json → Option α) : Slot → Option (Option α)
  | .given .null => some none
  | .given value => (read value).map some
  | _ => some none

end Slot

/-! ## Variants -/

/-- The tag of a variant, and its other fields. -/
def splitTag? (key : String) : Json → Option (Json × Json)
  | .object fields =>
    match fields.filter fun field => field.1 == key with
    | [(_, tag)] => some (tag, .object (fields.filter fun field => field.1 != key))
    | _ => none
  | .array (tag :: items) => some (tag, .array items)
  | _ => none

/-- The choice that a tag names. Inside another variant the place of the choice names it too. -/
def choose? {β : Type} (enclosed : Bool) (choices : List (String × β)) : Json → Option β
  | .string name => choices.lookup name
  | .number n =>
    if enclosed then
      n.toNat?.bind fun i => choices[i]?.map Prod.snd
    else none
  | _ => none

/-- Reads a variant: the tag is in the field `key`, and each choice reads the other fields. -/
def variant? {α : Type} (enclosed : Bool) (room : Nat) (key : String)
    (choices : List (String × (Json → Option α))) (json : Json) : Option α :=
  if enclosed || (json.depth ≤ room && json.isReadable) then
    (json.splitTag? key).bind fun (tag, rest) =>
      (choose? enclosed choices tag).bind fun read => read rest
  else none

/-- The name of a choice without fields, written alone or as the only field of an object. -/
def choiceName? (room : Nat) : Json → Option String
  | .string name => some name
  | .object [(name, .null)] => if 0 < room then some name else none
  | _ => none

/-- A variant with its tag in front of the fields. -/
def tagged (key name : String) (fields : List (String × Json)) : Json :=
  .object ((key, .string name) :: fields)

end Json

/-! ## Plain values -/

instance : Interchange String where
  encode := .string
  decode _ _ := Json.asString?

instance : Interchange Bool where
  encode := .bool
  decode
    | _, _, .bool value => some value
    | _, _, _ => none

instance : Interchange UInt64 where
  encode n := .number (.ofWord n)
  decode _ _ := Json.asWord?

instance {α : Type} [Interchange α] : Interchange (List α) where
  encode items := .array (items.map encode)
  decode
    | enclosed, room + 1, .array items => items.mapM (decode enclosed room)
    | _, _, _ => none

/-- A value that may be missing, as null. -/
def encodeOption {α : Type} [Interchange α] : Option α → Json
  | some value => encode value
  | none => .null

@[simp] theorem decode_encode_string (text : String) (enclosed : Bool) (room : Nat) :
    decode enclosed room (encode text) = some text := rfl

@[simp] theorem decode_encode_bool (value enclosed : Bool) (room : Nat) :
    decode enclosed room (encode value) = some value := rfl

@[simp] theorem decode_encode_word (n : UInt64) (enclosed : Bool) (room : Nat) :
    decode enclosed room (encode n) = some n := Number.toWord?_ofWord n

end FrontEnd
