import FrontEnd.Data.DataValue

/-! # Lowered declarations

What a struct or a function of the source becomes: a declaration with an identifier of its own, typed
parameters, possibly a return type, and what kind of declaration it is.
-/

namespace FrontEnd

/-- A type with its generic parameters. -/
inductive TypeRef where
  | mk (name : String) (generics : List TypeRef)

namespace TypeRef

def name : TypeRef → String
  | .mk name _ => name

def generics : TypeRef → List TypeRef
  | .mk _ generics => generics

mutual

/-- A type as text: its name, and its generic parameters in square brackets if there are any. -/
def describe : TypeRef → String
  | .mk name [] => name
  | .mk name (t :: ts) => name ++ "[" ++ ", ".intercalate (describeAll (t :: ts)) ++ "]"

/-- The types of a list as texts. -/
def describeAll : List TypeRef → List String
  | [] => []
  | t :: ts => t.describe :: describeAll ts

end

mutual

def same : TypeRef → TypeRef → Bool
  | .mk n gs, .mk m hs => n = m ∧ sameAll gs hs

/-- Whether two lists of types are the same. -/
def sameAll : List TypeRef → List TypeRef → Bool
  | [], [] => true
  | t :: ts, u :: us => same t u && sameAll ts us
  | _, _ => false

end

mutual

theorem same_iff : ∀ t u : TypeRef, same t u = true ↔ t = u
  | .mk _ gs, u => by cases u; simp [same, sameAll_iff gs]

theorem sameAll_iff : ∀ ts us : List TypeRef, sameAll ts us = true ↔ ts = us
  | [], us => by cases us <;> simp [sameAll]
  | t :: ts, us => by cases us <;> simp [sameAll, same_iff t, sameAll_iff ts]

end

instance : DecidableEq TypeRef := fun t u => decidable_of_iff _ (same_iff t u)

mutual

def toJson : TypeRef → Json
  | .mk name generics =>
    .object [("name", encode name), ("generics", .array (allToJson generics))]

def allToJson : List TypeRef → List Json
  | [] => []
  | t :: rest => t.toJson :: allToJson rest

end

mutual

def ofJson? (enclosed : Bool) : Nat → Json → Option TypeRef
  | 0, _ => none
  | room + 1, json =>
    match json.slots? ["name", "generics"] with
    | some [name, generics] => do
      return .mk
        (← name.required (decode enclosed room))
        (← generics.required (allOfJson? enclosed room))
    | _ => none

def allOfJson? (enclosed : Bool) : Nat → Json → Option (List TypeRef)
  | room + 1, .array items => items.mapM (ofJson? enclosed room)
  | _, _ => none

end

instance : Interchange TypeRef where
  encode := toJson
  decode := ofJson?

end TypeRef

/-- The name of an imported module or symbol. -/
structure ImportName where
  name : String
  deriving DecidableEq

namespace ImportName

def compare (m n : ImportName) : Ordering := Ord.compare m.name n.name

instance : Interchange ImportName where
  encode n := encode n.name
  decode enclosed room json := (decode enclosed room json).map ImportName.mk

end ImportName

/-- A typed input of a declaration. -/
structure Parameter where
  name : String
  type : TypeRef
  deriving DecidableEq

/-- What an instruction does. -/
inductive OpCode where
  | noop
  | const
  | call
  deriving DecidableEq

/-- An instruction of a lowered body. -/
structure Instruction where
  typeId : TypeId := .noType
  op : OpCode := .noop
  value : List String := []
  deriving DecidableEq

/-- What kind of declaration it is, and its lowered body. -/
structure Definition where
  isStruct : Bool := false
  isFunction : Bool := false
  isOperator : Bool := false
  annotation : String := ""
  expressions : List Instruction := []
  deriving DecidableEq

/-- A lowered declaration. The return type is missing where a function gives none. -/
structure Declaration where
  id : UInt64
  name : String
  inputs : List Parameter
  returnType : Option TypeRef
  definition : Definition
  deriving DecidableEq

namespace Parameter

instance : Interchange Parameter where
  encode p := .object [("name", encode p.name), ("type", encode p.type)]
  decode
    | enclosed, room + 1, json =>
      match json.slots? ["name", "type"] with
      | some [name, type] => do
        return {
          name := ← name.required (decode enclosed room)
          type := ← type.required (decode enclosed room) }
      | _ => none
    | _, _, _ => none

end Parameter

namespace OpCode

def name : OpCode → String
  | .noop => "Noop"
  | .const => "Const"
  | .call => "Call"

def all : List OpCode := [.noop, .const, .call]

instance : Interchange OpCode where
  encode op := encode op.name
  decode _ room json := (json.choiceName? room).bind fun name => all.find? fun op => op.name == name

end OpCode

namespace Instruction

instance : Interchange Instruction where
  encode i := .object [("type_id", encode i.typeId), ("op", encode i.op), ("value", encode i.value)]
  decode
    | enclosed, room + 1, json =>
      match json.slots? ["type_id", "op", "value"] with
      | some [typeId, op, value] => do
        return {
          typeId := ← typeId.required (decode enclosed room)
          op := ← op.required (decode enclosed room)
          value := ← value.required (decode enclosed room) }
      | _ => none
    | _, _, _ => none

end Instruction

namespace Definition

instance : Interchange Definition where
  encode d := .object [
    ("is_struct", encode d.isStruct), ("is_function", encode d.isFunction),
    ("is_operator", encode d.isOperator), ("annotation", encode d.annotation),
    ("expressions", encode d.expressions)]
  decode
    | enclosed, room + 1, json =>
      match json.slots? ["is_struct", "is_function", "is_operator", "annotation", "expressions"] with
      | some [isStruct, isFunction, isOperator, annotation, expressions] => do
        return {
          isStruct := ← isStruct.required (decode enclosed room)
          isFunction := ← isFunction.required (decode enclosed room)
          isOperator := ← isOperator.required (decode enclosed room)
          annotation := ← annotation.required (decode enclosed room)
          expressions := ← expressions.required (decode enclosed room) }
      | _ => none
    | _, _, _ => none

end Definition

namespace Declaration

instance : Interchange Declaration where
  encode d := .object [
    ("unique_id", encode d.id), ("name", encode d.name), ("inputs", encode d.inputs),
    ("return_type", encodeOption d.returnType), ("definition", encode d.definition)]
  decode
    | enclosed, room + 1, json =>
      match json.slots? ["unique_id", "name", "inputs", "return_type", "definition"] with
      | some [id, name, inputs, returnType, definition] => do
        return {
          id := ← id.required (decode enclosed room)
          name := ← name.required (decode enclosed room)
          inputs := ← inputs.required (decode enclosed room)
          returnType := ← returnType.nullable (decode enclosed room)
          definition := ← definition.required (decode enclosed room) }
      | _ => none
    | _, _, _ => none

end Declaration

end FrontEnd
