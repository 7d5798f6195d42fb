/-! # JSON values

A value keeps what the text says and no more: the fields of an object stay in the order they are written,
a repeated field included, and a number keeps its digits. What is well formed but stands for nothing has a
place among the values too, because a record may skip it.
-/

namespace FrontEnd

/-- A number as it is written. -/
inductive Number where
  /-- Digits alone, after an optional sign. -/
  | integer (negative : Bool) (magnitude : Nat)
  /-- A number written with a point or an exponent: `digits * 10 ^ scale`. -/
  | decimal (negative : Bool) (digits : Nat) (scale : Int)
  deriving DecidableEq

namespace Number

/-- The natural number, if it is written without sign, point and exponent. -/
def toNat? : Number → Option Nat
  | .integer false n => some n
  | _ => none

/-- The number as a word of 64 bits, if it is a natural number that fits. -/
def toWord? (n : Number) : Option UInt64 :=
  n.toNat?.bind fun n => if n < UInt64.size then some (UInt64.ofNat n) else none

/-- The integer, if it is written without point and exponent. -/
def toInt? : Number → Option Int
  | .integer false n => some n
  | .integer true n => some (-n)
  | .decimal .. => none

def ofWord (n : UInt64) : Number := .integer false n.toNat

def ofInt (n : Int) : Number := .integer (n < 0) n.natAbs

theorem toWord?_ofWord (n : UInt64) : (ofWord n).toWord? = some n := by
  simp [ofWord, toWord?, toNat?, n.toNat_lt_size]

end Number

/-- A JSON value. -/
inductive Json where
  | null
  | bool (value : Bool)
  | number (value : Number)
  | string (value : String)
  | array (items : List Json)
  | object (fields : List (String × Json))
  /-- A string with half of a surrogate pair alone, an object with such a name, or a number beyond the
  range of double precision. -/
  | unreadable

namespace Json

mutual

/-- How deep arrays and objects are nested in a value. -/
def depth : Json → Nat
  | .array items => depthOfItems items + 1
  | .object fields => depthOfFields fields + 1
  | _ => 0

/-- The greatest depth among the items of an array. -/
def depthOfItems : List Json → Nat
  | [] => 0
  | item :: rest => max item.depth (depthOfItems rest)

/-- The greatest depth among the fields of an object. -/
def depthOfFields : List (String × Json) → Nat
  | [] => 0
  | (_, value) :: rest => max value.depth (depthOfFields rest)

end

mutual

/-- Whether all of a value can be read. -/
def isReadable : Json → Bool
  | .array items => itemsReadable items
  | .object fields => fieldsReadable fields
  | .unreadable => false
  | _ => true

/-- Whether all items of an array can be read. -/
def itemsReadable : List Json → Bool
  | [] => true
  | item :: rest => item.isReadable && itemsReadable rest

/-- Whether all fields of an object can be read. -/
def fieldsReadable : List (String × Json) → Bool
  | [] => true
  | (_, value) :: rest => value.isReadable && fieldsReadable rest

end

/-- The value of the first field of a name. -/
def field? (name : String) : Json → Option Json
  | .object fields => fields.lookup name
  | _ => none

def asString? : Json → Option String
  | .string text => some text
  | _ => none

def asItems? : Json → Option (List Json)
  | .array items => some items
  | _ => none

def asInt? : Json → Option Int
  | .number n => n.toInt?
  | _ => none

/-- The natural number that a number is. -/
def asNat? : Json → Option Nat
  | .number n => n.toNat?
  | _ => none

/-- The word of 64 bits that a number is. -/
def asWord? : Json → Option UInt64
  | .number n => n.toWord?
  | _ => none

def ofNat (n : Nat) : Json := .number (.integer false n)

/-- A string, or `null` where there is none. -/
def ofString? : Option String → Json
  | some text => .string text
  | none => .null

end Json

end FrontEnd
