import FrontEnd.Json.Reader
import FrontEnd.Syntax.Module

/-! # Source files

A source file is a module, or a configuration: a data file that assigns values to names.
-/

namespace FrontEnd

/-- The assignment of a value to a name, or to two names with a dot between them. -/
structure Assignment where
  position : Position := {}
  firstName : String
  secondName : Option String := none
  value : Value
  deriving DecidableEq

/-- A data file. -/
structure Configuration where
  position : Position := {}
  assignments : List Assignment := []
  deriving DecidableEq

/-- The syntax tree of a source file. -/
inductive SourceTree where
  | module (tree : Module)
  | configuration (tree : Configuration)
  deriving DecidableEq

namespace Assignment

instance : Interchange Assignment where
  encode a := .object [
    ("position", encode a.position), ("first_name", encode a.firstName),
    ("second_name", encodeOption a.secondName), ("value", encode a.value)]
  decode
    | enclosed, room + 1, json =>
      match json.slots? ["position", "first_name", "second_name", "value"] with
      | some [position, firstName, secondName, value] => do
        return {
          position := ← position.orElse {} (decode enclosed room)
          firstName := ← firstName.required (decode enclosed room)
          secondName := ← secondName.nullableOrElse (decode enclosed room)
          value := ← value.required (decode enclosed room) }
      | _ => none
    | _, _, _ => none

end Assignment

namespace Configuration

def toFields (c : Configuration) : List (String × Json) :=
  [("position", encode c.position), ("assignments", encode c.assignments)]

def ofFields? (enclosed : Bool) (room : Nat) (json : Json) : Option Configuration :=
  match json.slots? ["position", "assignments"] with
  | some [position, assignments] => do
    return {
      position := ← position.orElse {} (decode enclosed room)
      assignments := ← assignments.orElse [] (decode enclosed room) }
  | _ => none

instance : Interchange Configuration where
  encode c := .object c.toFields
  decode
    | enclosed, room + 1, json => ofFields? enclosed room json
    | _, _, _ => none

end Configuration

namespace SourceTree

/-- The name of the kind of a tree. -/
def kind : SourceTree → String
  | .module _ => "Module"
  | .configuration _ => "Configuration"

instance : Interchange SourceTree where
  encode
    | .module m => Json.tagged "kind" "Module" m.toFields
    | .configuration c => Json.tagged "kind" "Configuration" c.toFields
  decode
    | enclosed, room + 1, json =>
      json.variant? enclosed (room + 1) "kind" [
        ("Module", fun body => (Module.ofFields? true room body).map .module),
        ("Configuration", fun body => (Configuration.ofFields? true room body).map .configuration)]
    | _, _, _ => none

/-- The syntax tree that a text holds. -/
def read? (text : String) : Option SourceTree :=
  (Json.read? text).bind decodeWhole?

end SourceTree

end FrontEnd
