import FrontEnd.Syntax.Value

/-! # Expressions

Expressions that stand side by side form a chain: an expression that may be followed by another one keeps
it as `next`. Which kinds of expressions may stand where is said by `Category`.
-/

namespace FrontEnd

mutual

/-- An expression of the body of a function. -/
inductive Expression where
  | blockConditional (position : Position) (condition : Expression) (execution : List Expression)
      (subConditionals : List SubConditional) (alternative : List Expression)
  | label (position : Position) (name : String) (resolution : Expression)
  | inlineConditional (position : Position) (condition execution : Expression)
  | parenthetical (position : Position) (execution : Expression) (next : Option Expression)
  | capture (position : Position) (execution : Expression) (next : Option Expression)
  | reference (position : Position) (names : List String) (next : Option Expression)
  | operator (position : Position) (sign : String) (next : Option Expression)
  | literal (position : Position) (value : Value)

/-- A further branch of a conditional block. -/
inductive SubConditional where
  | mk (position : Position) (condition : Expression) (execution : List Expression)

end

/-- Where an expression may stand. -/
inductive Category where
  /-- An instruction of a block. -/
  | block
  /-- Inside another expression. -/
  | inline
  /-- An expression that is evaluated before the program runs. -/
  | constexpr
  deriving DecidableEq

namespace Category

def name : Category → String
  | .block => "Block"
  | .inline => "Inline"
  | .constexpr => "Constexpr"

/-- A category in the words of a diagnostic. -/
def description : Category → String
  | .block => "block instruction"
  | .inline => "inline expression"
  | .constexpr => "constant expression"

def all : List Category := [.block, .inline, .constexpr]

/-- The category of what is nested in an expression or follows it in its chain: nothing nested in an
instruction is an instruction itself. -/
def nested : Category → Category
  | .block => .inline
  | category => category

instance : Interchange Category where
  encode category := encode category.name
  decode _ room json :=
    (json.choiceName? room).bind fun name => all.find? fun category => category.name == name

end Category

namespace Expression

def position : Expression → Position
  | .blockConditional position .. => position
  | .label position .. => position
  | .inlineConditional position .. => position
  | .parenthetical position .. => position
  | .capture position .. => position
  | .reference position .. => position
  | .operator position .. => position
  | .literal position _ => position

/-- The kind of an expression in the words of a diagnostic. -/
def kind : Expression → String
  | .blockConditional .. => "conditional block"
  | .label .. => "label"
  | .inlineConditional .. => "inline conditional"
  | .parenthetical .. => "parenthetical"
  | .capture .. => "capture"
  | .reference .. => "reference"
  | .operator .. => "operator"
  | .literal .. => "literal"

/-- Whether an expression may be an instruction of a block. -/
def isBlock : Expression → Bool
  | .operator .. => false
  | .literal .. => false
  | _ => true

/-- Whether an expression may stand inside another one. -/
def isInline : Expression → Bool
  | .parenthetical .. => true
  | .capture .. => true
  | .reference .. => true
  | .operator .. => true
  | _ => false

/-- Whether an expression may be evaluated before the program runs. -/
def isConstexpr : Expression → Bool
  | .literal .. => true
  | e => e.isInline

/-- Whether an expression by itself may stand at a place of a category. -/
def belongsTo (e : Expression) : Category → Bool
  | .block => e.isBlock
  | .inline => e.isInline
  | .constexpr => e.isConstexpr

/-- The expression that follows in the chain. -/
def next? : Expression → Option Expression
  | .parenthetical _ _ next => next
  | .capture _ _ next => next
  | .reference _ _ next => next
  | .operator _ _ next => next
  | _ => none

/-- An expression and all that follow it. -/
def chain : Expression → List Expression
  | .parenthetical p e (some next) => .parenthetical p e (some next) :: chain next
  | .capture p e (some next) => .capture p e (some next) :: chain next
  | .reference p names (some next) => .reference p names (some next) :: chain next
  | .operator p o (some next) => .operator p o (some next) :: chain next
  | e => [e]

/-! ## Equality -/

mutual

def same : Expression → Expression → Bool
  | .blockConditional p c e s a, .blockConditional p' c' e' s' a' =>
    p = p' ∧ same c c' ∧ sameAll e e' ∧ sameBranches s s' ∧ sameAll a a'
  | .label p l r, .label p' l' r' => p = p' ∧ l = l' ∧ same r r'
  | .inlineConditional p c e, .inlineConditional p' c' e' => p = p' ∧ same c c' ∧ same e e'
  | .parenthetical p e n, .parenthetical p' e' n' => p = p' ∧ same e e' ∧ sameNext n n'
  | .capture p e n, .capture p' e' n' => p = p' ∧ same e e' ∧ sameNext n n'
  | .reference p ns n, .reference p' ns' n' => p = p' ∧ ns = ns' ∧ sameNext n n'
  | .operator p o n, .operator p' o' n' => p = p' ∧ o = o' ∧ sameNext n n'
  | .literal p v, .literal p' v' => p = p' ∧ v = v'
  | _, _ => false
termination_by structural e => e

/-- Whether two lists of expressions are the same. -/
def sameAll : List Expression → List Expression → Bool
  | [], [] => true
  | e :: es, f :: fs => same e f && sameAll es fs
  | _, _ => false

/-- Whether two lists of branches are the same. -/
def sameBranches : List SubConditional → List SubConditional → Bool
  | [], [] => true
  | .mk p c e :: ss, .mk p' c' e' :: ts =>
    (p = p' ∧ same c c' ∧ sameAll e e') && sameBranches ss ts
  | _, _ => false

def sameNext : Option Expression → Option Expression → Bool
  | none, none => true
  | some e, some f => same e f
  | _, _ => false

end

mutual

theorem same_iff : ∀ e f : Expression, same e f = true ↔ e = f
  | .blockConditional _ c e s a, f => by
    cases f <;> simp [same, same_iff c, sameAll_iff e, sameBranches_iff s, sameAll_iff a]
  | .label _ _ r, f => by cases f <;> simp [same, same_iff r]
  | .inlineConditional _ c e, f => by cases f <;> simp [same, same_iff c, same_iff e]
  | .parenthetical _ e n, f => by cases f <;> simp [same, same_iff e, sameNext_iff n]
  | .capture _ e n, f => by cases f <;> simp [same, same_iff e, sameNext_iff n]
  | .reference _ _ n, f => by cases f <;> simp [same, sameNext_iff n]
  | .operator _ _ n, f => by cases f <;> simp [same, sameNext_iff n]
  | .literal .., f => by cases f <;> simp [same]

theorem sameAll_iff : ∀ es fs : List Expression, sameAll es fs = true ↔ es = fs
  | [], fs => by cases fs <;> simp [sameAll]
  | e :: es, fs => by cases fs <;> simp [sameAll, same_iff e, sameAll_iff es]

theorem sameBranches_iff : ∀ ss ts : List SubConditional, sameBranches ss ts = true ↔ ss = ts
  | [], ts => by cases ts <;> simp [sameBranches]
  | .mk _ c e :: ss, ts => by
    rcases ts with _ | ⟨⟨p', c', e'⟩, ts⟩ <;>
      simp [sameBranches, same_iff c, sameAll_iff e, sameBranches_iff ss]

theorem sameNext_iff : ∀ n m : Option Expression, sameNext n m = true ↔ n = m
  | none, m => by cases m <;> simp [sameNext]
  | some e, m => by cases m <;> simp [sameNext, same_iff e]

end

instance : DecidableEq Expression := fun e f => decidable_of_iff _ (same_iff e f)

/-! ## JSON -/

mutual

def toJson : Expression → Json
  | .blockConditional position condition execution subConditionals alternative =>
    Json.tagged "kind" "BlockConditional" [
      ("position", encode position), ("condition", condition.toJson),
      ("execution", .array (allToJson execution)),
      ("sub_conditionals", .array (branchesToJson subConditionals)),
      ("alternative", .array (allToJson alternative))]
  | .label position name resolution =>
    Json.tagged "kind" "Label"
      [("position", encode position), ("label", encode name), ("resolution", resolution.toJson)]
  | .inlineConditional position condition execution =>
    Json.tagged "kind" "InlineConditional" [
      ("position", encode position), ("condition", condition.toJson),
      ("execution", execution.toJson)]
  | .parenthetical position execution next =>
    Json.tagged "kind" "Parenthetical" [
      ("position", encode position), ("execution", execution.toJson), ("next", nextToJson next)]
  | .capture position execution next =>
    Json.tagged "kind" "Capture" [
      ("position", encode position), ("execution", execution.toJson), ("next", nextToJson next)]
  | .reference position names next =>
    Json.tagged "kind" "Reference"
      [("position", encode position), ("names", encode names), ("next", nextToJson next)]
  | .operator position sign next =>
    Json.tagged "kind" "Operator"
      [("position", encode position), ("operator", encode sign), ("next", nextToJson next)]
  | .literal position value =>
    Json.tagged "kind" "Literal" [("position", encode position), ("value", encode value)]

def allToJson : List Expression → List Json
  | [] => []
  | e :: rest => e.toJson :: allToJson rest

def branchesToJson : List SubConditional → List Json
  | [] => []
  | .mk position condition execution :: rest =>
    .object [
      ("position", encode position), ("condition", condition.toJson),
      ("execution", .array (allToJson execution))] :: branchesToJson rest

/-- A continuation, or null. -/
def nextToJson : Option Expression → Json
  | none => .null
  | some e => e.toJson

end

mutual

def ofJson? (enclosed : Bool) : Nat → Json → Option Expression
  | 0, _ => none
  | room + 1, json =>
    json.variant? enclosed (room + 1) "kind" [
      ("BlockConditional", fun body =>
        match body.slots? ["position", "condition", "execution", "sub_conditionals", "alternative"] with
        | some [position, condition, execution, subConditionals, alternative] => do
          return .blockConditional
            (← position.orElse {} (decode true room))
            (← condition.required (ofJson? true room))
            (← execution.required (allOfJson? room))
            (← subConditionals.orElse [] (branchesOfJson? room))
            (← alternative.orElse [] (allOfJson? room))
        | _ => none),
      ("Label", fun body =>
        match body.slots? ["position", "label", "resolution"] with
        | some [position, name, resolution] => do
          return .label
            (← position.orElse {} (decode true room))
            (← name.required (decode true room))
            (← resolution.required (ofJson? true room))
        | _ => none),
      ("InlineConditional", fun body =>
        match body.slots? ["position", "condition", "execution"] with
        | some [position, condition, execution] => do
          return .inlineConditional
            (← position.orElse {} (decode true room))
            (← condition.required (ofJson? true room))
            (← execution.required (ofJson? true room))
        | _ => none),
      ("Parenthetical", fun body =>
        match body.slots? ["position", "execution", "next"] with
        | some [position, execution, next] => do
          return .parenthetical
            (← position.orElse {} (decode true room))
            (← execution.required (ofJson? true room))
            (← next.nullableOrElse (ofJson? true room))
        | _ => none),
      ("Capture", fun body =>
        match body.slots? ["position", "execution", "next"] with
        | some [position, execution, next] => do
          return .capture
            (← position.orElse {} (decode true room))
            (← execution.required (ofJson? true room))
            (← next.nullableOrElse (ofJson? true room))
        | _ => none),
      ("Reference", fun body =>
        match body.slots? ["position", "names", "next"] with
        | some [position, names, next] => do
          return .reference
            (← position.orElse {} (decode true room))
            (← names.required (decode true room))
            (← next.nullableOrElse (ofJson? true room))
        | _ => none),
      ("Operator", fun body =>
        match body.slots? ["position", "operator", "next"] with
        | some [position, sign, next] => do
          return .operator
            (← position.orElse {} (decode true room))
            (← sign.required (decode true room))
            (← next.nullableOrElse (ofJson? true room))
        | _ => none),
      ("Literal", fun body =>
        match body.slots? ["position", "value"] with
        | some [position, value] => do
          return .literal
            (← position.orElse {} (decode true room))
            (← value.required (decode true room))
        | _ => none)]

/-- The expressions of an array inside an expression or a body. -/
def allOfJson? : Nat → Json → Option (List Expression)
  | room + 1, .array items => items.mapM (ofJson? true room)
  | _, _ => none

def branchesOfJson? : Nat → Json → Option (List SubConditional)
  | room + 1, .array items => items.mapM (branchOfJson? room)
  | _, _ => none

def branchOfJson? : Nat → Json → Option SubConditional
  | 0, _ => none
  | room + 1, json =>
    match json.slots? ["position", "condition", "execution"] with
    | some [position, condition, execution] => do
      return .mk
        (← position.orElse {} (decode true room))
        (← condition.required (ofJson? true room))
        (← execution.required (allOfJson? room))
    | _ => none

end

instance : Interchange Expression where
  encode := toJson
  decode := ofJson?

end Expression

end FrontEnd
