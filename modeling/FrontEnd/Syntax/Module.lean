import FrontEnd.Syntax.Expression
import FrontEnd.Syntax.FunctionName
import FrontEnd.Syntax.TypeExpr

/-! # Source modules

A module is a list of parts, and each part a run of imports, of structs or of functions.
-/

namespace FrontEnd

/-! ## Imports -/

/-- An import of one name, or of a list of names. -/
inductive Import where
  | single (position : Position) (name : String)
  | list (position : Position) (names : List String)
  deriving DecidableEq

namespace Import

def position : Import → Position
  | .single position _ => position
  | .list position _ => position

def names : Import → List String
  | .single _ name => [name]
  | .list _ names => names

instance : Interchange Import where
  encode
    | .single position name =>
      Json.tagged "kind" "Single" [("position", encode position), ("name", encode name)]
    | .list position names =>
      Json.tagged "kind" "List" [("position", encode position), ("names", encode names)]
  decode
    | enclosed, room + 1, json =>
      json.variant? enclosed (room + 1) "kind" [
        ("Single", fun body =>
          match body.slots? ["position", "name"] with
          | some [position, name] => do
            return .single
              (← position.orElse {} (decode true room)) (← name.required (decode true room))
          | _ => none),
        ("List", fun body =>
          match body.slots? ["position", "names"] with
          | some [position, names] => do
            return .list
              (← position.orElse {} (decode true room)) (← names.required (decode true room))
          | _ => none)]
    | _, _, _ => none

end Import

/-! ## Structs -/

/-- The declaration of a struct. -/
structure StructDecl where
  position : Position := {}
  name : String
  fields : List Input := []
  deriving DecidableEq

namespace StructDecl

instance : Interchange StructDecl where
  encode s := .object [
    ("position", encode s.position), ("name", encode s.name), ("fields", encode s.fields)]
  decode
    | enclosed, room + 1, json =>
      match json.slots? ["position", "name", "fields"] with
      | some [position, name, fields] => do
        return {
          position := ← position.orElse {} (decode enclosed room)
          name := ← name.required (decode enclosed room)
          fields := ← fields.orElse [] (decode enclosed room) }
      | _ => none
    | _, _, _ => none

end StructDecl

/-! ## Functions -/

/-- One case of a function that is defined by patterns. -/
structure Pattern where
  position : Position := {}
  name : String
  params : List String := []
  definition : Expression
  deriving DecidableEq

/-- The body of a function. -/
inductive Body where
  | constexpr (position : Position) (expressions : List Expression)
  | block (position : Position) (instructions : List Expression)
  | pattern (position : Position) (patterns : List Pattern)
  deriving DecidableEq

/-- The declaration of a function. -/
structure FunctionDecl where
  position : Position := {}
  annotation : Option String := none
  returnType : Option TypeExpr := none
  name : FunctionName
  inputs : List Input := []
  body : Body
  deriving DecidableEq

namespace Pattern

instance : Interchange Pattern where
  encode p := .object [
    ("position", encode p.position), ("name", encode p.name), ("params", encode p.params),
    ("definition", encode p.definition)]
  decode
    | enclosed, room + 1, json =>
      match json.slots? ["position", "name", "params", "definition"] with
      | some [position, name, params, definition] => do
        return {
          position := ← position.orElse {} (decode enclosed room)
          name := ← name.required (decode enclosed room)
          params := ← params.orElse [] (decode enclosed room)
          definition := ← definition.required (decode enclosed room) }
      | _ => none
    | _, _, _ => none

end Pattern

namespace Body

def position : Body → Position
  | .constexpr position _ => position
  | .block position _ => position
  | .pattern position _ => position

/-- The name of the form of a body. -/
def kind : Body → String
  | .constexpr .. => "Constexpr"
  | .block .. => "Block"
  | .pattern .. => "Pattern"

/-- The expressions of a body; a pattern gives its definition. -/
def items : Body → List Expression
  | .constexpr _ expressions => expressions
  | .block _ instructions => instructions
  | .pattern _ patterns => patterns.map (·.definition)

instance : Interchange Body where
  encode
    | .constexpr position expressions =>
      Json.tagged "kind" "Constexpr"
        [("position", encode position), ("expressions", encode expressions)]
    | .block position instructions =>
      Json.tagged "kind" "Block"
        [("position", encode position), ("instructions", encode instructions)]
    | .pattern position patterns =>
      Json.tagged "kind" "Pattern" [("position", encode position), ("patterns", encode patterns)]
  decode
    | enclosed, room + 1, json =>
      json.variant? enclosed (room + 1) "kind" [
        ("Constexpr", fun body =>
          match body.slots? ["position", "expressions"] with
          | some [position, expressions] => do
            return .constexpr
              (← position.orElse {} (decode true room)) (← expressions.required (decode true room))
          | _ => none),
        ("Block", fun body =>
          match body.slots? ["position", "instructions"] with
          | some [position, instructions] => do
            return .block
              (← position.orElse {} (decode true room)) (← instructions.required (decode true room))
          | _ => none),
        ("Pattern", fun body =>
          match body.slots? ["position", "patterns"] with
          | some [position, patterns] => do
            return .pattern
              (← position.orElse {} (decode true room)) (← patterns.required (decode true room))
          | _ => none)]
    | _, _, _ => none

end Body

namespace FunctionDecl

instance : Interchange FunctionDecl where
  encode f := .object [
    ("position", encode f.position), ("annotation", encodeOption f.annotation),
    ("return_type", encodeOption f.returnType), ("name", encode f.name),
    ("inputs", encode f.inputs), ("definition", encode f.body)]
  decode
    | enclosed, room + 1, json =>
      match json.slots? ["position", "annotation", "return_type", "name", "inputs", "definition"] with
      | some [position, annotation, returnType, name, inputs, body] => do
        return {
          position := ← position.orElse {} (decode enclosed room)
          annotation := ← annotation.nullableOrElse (decode enclosed room)
          returnType := ← returnType.nullableOrElse (decode enclosed room)
          name := ← name.required (decode enclosed room)
          inputs := ← inputs.orElse [] (decode enclosed room)
          body := ← body.required (decode enclosed room) }
      | _ => none
    | _, _, _ => none

end FunctionDecl

/-! ## Modules -/

/-- A run of declarations of one kind. -/
inductive Part where
  | imports (position : Position) (imports : List Import)
  | structs (position : Position) (structs : List StructDecl)
  | functions (position : Position) (functions : List FunctionDecl)
  deriving DecidableEq

namespace Part

def position : Part → Position
  | .imports position _ => position
  | .structs position _ => position
  | .functions position _ => position

instance : Interchange Part where
  encode
    | .imports position items =>
      Json.tagged "part" "Import" [("position", encode position), ("imports", encode items)]
    | .structs position items =>
      Json.tagged "part" "Struct" [("position", encode position), ("structs", encode items)]
    | .functions position items =>
      Json.tagged "part" "Function" [("position", encode position), ("functions", encode items)]
  decode
    | enclosed, room + 1, json =>
      json.variant? enclosed (room + 1) "part" [
        ("Import", fun body =>
          match body.slots? ["position", "imports"] with
          | some [position, items] => do
            return .imports
              (← position.orElse {} (decode true room)) (← items.required (decode true room))
          | _ => none),
        ("Struct", fun body =>
          match body.slots? ["position", "structs"] with
          | some [position, items] => do
            return .structs
              (← position.orElse {} (decode true room)) (← items.required (decode true room))
          | _ => none),
        ("Function", fun body =>
          match body.slots? ["position", "functions"] with
          | some [position, items] => do
            return .functions
              (← position.orElse {} (decode true room)) (← items.required (decode true room))
          | _ => none)]
    | _, _, _ => none

end Part

/-- A source file. -/
structure Module where
  position : Position := {}
  parts : List Part := []
  deriving DecidableEq

namespace Module

def toFields (m : Module) : List (String × Json) :=
  [("position", encode m.position), ("parts", encode m.parts)]

def ofFields? (enclosed : Bool) (room : Nat) (json : Json) : Option Module :=
  match json.slots? ["position", "parts"] with
  | some [position, parts] => do
    return {
      position := ← position.orElse {} (decode enclosed room)
      parts := ← parts.orElse [] (decode enclosed room) }
  | _ => none

instance : Interchange Module where
  encode m := .object m.toFields
  decode
    | enclosed, room + 1, json => ofFields? enclosed room json
    | _, _, _ => none

end Module

end FrontEnd
