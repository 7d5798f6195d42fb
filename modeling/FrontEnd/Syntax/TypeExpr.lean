import FrontEnd.Syntax.Position

/-! # Types in the source

A type has a name and generic parameters, which are types again. A type and a name together make an input:
a field of a struct or an input of a function.
-/

namespace FrontEnd

/-- A type as it is written. -/
inductive TypeExpr where
  | mk (name : String) (generics : List TypeExpr)

namespace TypeExpr

def name : TypeExpr → String
  | .mk name _ => name

def generics : TypeExpr → List TypeExpr
  | .mk _ generics => generics

mutual

def same : TypeExpr → TypeExpr → Bool
  | .mk n gs, .mk m hs => n = m ∧ sameAll gs hs

/-- Whether two lists of types are the same. -/
def sameAll : List TypeExpr → List TypeExpr → Bool
  | [], [] => true
  | t :: ts, u :: us => same t u && sameAll ts us
  | _, _ => false

end

mutual

theorem same_iff : ∀ t u : TypeExpr, same t u = true ↔ t = u
  | .mk _ gs, u => by cases u; simp [same, sameAll_iff gs]

theorem sameAll_iff : ∀ ts us : List TypeExpr, sameAll ts us = true ↔ ts = us
  | [], us => by cases us <;> simp [sameAll]
  | t :: ts, us => by cases us <;> simp [sameAll, same_iff t, sameAll_iff ts]

end

instance : DecidableEq TypeExpr := fun t u => decidable_of_iff _ (same_iff t u)

mutual

def toJson : TypeExpr → Json
  | .mk name generics =>
    .object [("name", encode name), ("generics", .array (allToJson generics))]

def allToJson : List TypeExpr → List Json
  | [] => []
  | t :: rest => t.toJson :: allToJson rest

end

mutual

/-- The type of a record; its generic parameters may be left out. -/
def ofJson? (enclosed : Bool) : Nat → Json → Option TypeExpr
  | 0, _ => none
  | room + 1, json =>
    match json.slots? ["name", "generics"] with
    | some [name, generics] => do
      return .mk
        (← name.required (decode enclosed room))
        (← generics.orElse [] (allOfJson? enclosed room))
    | _ => none

def allOfJson? (enclosed : Bool) : Nat → Json → Option (List TypeExpr)
  | room + 1, .array items => items.mapM (ofJson? enclosed room)
  | _, _ => none

end

instance : Interchange TypeExpr where
  encode := toJson
  decode := ofJson?

end TypeExpr

/-- A typed name. -/
structure Input where
  position : Position := {}
  type : TypeExpr
  name : String
  deriving DecidableEq

namespace Input

instance : Interchange Input where
  encode input := .object [
    ("position", encode input.position), ("type", encode input.type), ("name", encode input.name)]
  decode
    | enclosed, room + 1, json =>
      match json.slots? ["position", "type", "name"] with
      | some [position, type, name] => do
        return {
          position := ← position.orElse {} (decode enclosed room)
          type := ← type.required (decode enclosed room)
          name := ← name.required (decode enclosed room) }
      | _ => none
    | _, _, _ => none

end Input

end FrontEnd
