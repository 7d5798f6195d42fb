import FrontEnd.Syntax.Position

/-! # Literal values

A value is a scalar, which keeps the text it is written with, or a group of other values.
-/

namespace FrontEnd

/-- The kinds of scalars. -/
inductive ScalarKind where
  | bool
  | float
  | int
  | string
  | char
  deriving DecidableEq

/-- The kinds of groups. -/
inductive GroupKind where
  | list
  | struct
  deriving DecidableEq

/-- A literal value. -/
inductive Value where
  | scalar (kind : ScalarKind) (position : Position) (text : String)
  | group (kind : GroupKind) (position : Position) (members : List Value)

/-- The tag of a kind of scalars. -/
def ScalarKind.name : ScalarKind → String
  | .bool => "Bool"
  | .float => "Float"
  | .int => "Int"
  | .string => "String"
  | .char => "Char"

/-- The tag of a kind of groups. -/
def GroupKind.name : GroupKind → String
  | .list => "List"
  | .struct => "Struct"

/-- The name that a kind of groups gives to its members. -/
def GroupKind.memberField : GroupKind → String
  | .list => "values"
  | .struct => "fields"

namespace Value

def position : Value → Position
  | .scalar _ position _ => position
  | .group _ position _ => position

def isGroup : Value → Bool
  | .scalar .. => false
  | .group .. => true

/-- The members of a group; a scalar has none. -/
def members : Value → List Value
  | .scalar .. => []
  | .group _ _ members => members

/-! ## Equality -/

mutual

def same : Value → Value → Bool
  | .scalar k p t, .scalar k' p' t' => k = k' ∧ p = p' ∧ t = t'
  | .group k p ms, .group k' p' ms' => k = k' ∧ p = p' ∧ sameAll ms ms'
  | _, _ => false

/-- Whether two lists of values are the same. -/
def sameAll : List Value → List Value → Bool
  | [], [] => true
  | v :: vs, w :: ws => same v w && sameAll vs ws
  | _, _ => false

end

mutual

theorem same_iff : ∀ v w : Value, same v w = true ↔ v = w
  | .scalar .., w => by cases w <;> simp [same]
  | .group _ _ ms, w => by cases w <;> simp [same, sameAll_iff ms]

theorem sameAll_iff : ∀ vs ws : List Value, sameAll vs ws = true ↔ vs = ws
  | [], ws => by cases ws <;> simp [sameAll]
  | v :: vs, ws => by cases ws <;> simp [sameAll, same_iff v, sameAll_iff vs]

end

instance : DecidableEq Value := fun v w => decidable_of_iff _ (same_iff v w)

/-! ## JSON -/

mutual

def toJson : Value → Json
  | .scalar kind position text =>
    Json.tagged "kind" kind.name [("position", encode position), ("value", .string text)]
  | .group kind position members =>
    Json.tagged "kind" kind.name
      [("position", encode position), (kind.memberField, .array (allToJson members))]

def allToJson : List Value → List Json
  | [] => []
  | value :: rest => value.toJson :: allToJson rest

end

def scalarOf (kind : ScalarKind) (room : Nat) (json : Json) : Option Value :=
  match json.slots? ["position", "value"] with
  | some [position, text] => do
    return .scalar kind (← position.orElse {} (decode true room)) (← text.required (decode true room))
  | _ => none

def groupOf (kind : GroupKind) (room : Nat) (readAll : Json → Option (List Value)) (json : Json) :
    Option Value :=
  match json.slots? ["position", kind.memberField] with
  | some [position, members] => do
    return .group kind (← position.orElse {} (decode true room)) (← members.required readAll)
  | _ => none

mutual

def ofJson? (enclosed : Bool) : Nat → Json → Option Value
  | 0, _ => none
  | room + 1, json =>
    json.variant? enclosed (room + 1) "kind" [
      ("Bool", scalarOf .bool room), ("Float", scalarOf .float room), ("Int", scalarOf .int room),
      ("String", scalarOf .string room), ("Char", scalarOf .char room),
      ("List", groupOf .list room (allOfJson? room)),
      ("Struct", groupOf .struct room (allOfJson? room))]

/-- The values of an array inside a value. -/
def allOfJson? : Nat → Json → Option (List Value)
  | room + 1, .array items => items.mapM (ofJson? true room)
  | _, _ => none

end

instance : Interchange Value where
  encode := toJson
  decode := ofJson?

end Value

end FrontEnd
