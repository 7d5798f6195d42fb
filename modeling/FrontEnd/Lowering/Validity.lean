import FrontEnd.Lowering.Error
import FrontEnd.Syntax.Module

/-! # Valid bodies

A body is valid if each of its expressions belongs where it stands. The check goes along a chain link by
link: first the link itself, then what is nested in it, then the rest of the chain. Only the first place of
an instruction is an instruction's; what is nested in it or follows it is inline, but the condition of a
conditional block is an instruction again.
-/

namespace FrontEnd

namespace Expression

/-- Whether an expression by itself belongs where it stands. -/
def checkPlace (category : Category) (e : Expression) : Except LoweringError Unit :=
  if e.belongsTo category then .ok ()
  else .error ((Defect.misplaced e.kind category).errorAt e.position)

mutual

/-- Whether an expression, all that is nested in it and all that follows it belong where they stand. -/
def check (category : Category) : Expression → Except LoweringError Unit
  | .blockConditional position condition execution branches alternative => do
    checkPlace category (.blockConditional position condition execution branches alternative)
    check .block condition
    checkAll category.nested execution
    checkBranches category.nested branches
    checkAll category.nested alternative
  | .label position name resolution => do
    checkPlace category (.label position name resolution)
    check category.nested resolution
  | .inlineConditional position condition execution => do
    checkPlace category (.inlineConditional position condition execution)
    check category.nested condition
    check category.nested execution
  | .parenthetical position execution next => do
    checkPlace category (.parenthetical position execution next)
    check category.nested execution
    checkNext category.nested next
  | .capture position execution next => do
    checkPlace category (.capture position execution next)
    check category.nested execution
    checkNext category.nested next
  | .reference position names next => do
    checkPlace category (.reference position names next)
    checkNext category.nested next
  | .operator position sign next => do
    checkPlace category (.operator position sign next)
    checkNext category.nested next
  | .literal position value => checkPlace category (.literal position value)

/-- Whether the expressions of a list belong where they stand. -/
def checkAll (category : Category) : List Expression → Except LoweringError Unit
  | [] => .ok ()
  | e :: rest => do
    check category e
    checkAll category rest

/-- Whether the expressions of some branches belong where they stand. -/
def checkBranches (category : Category) : List SubConditional → Except LoweringError Unit
  | [] => .ok ()
  | .mk _ condition execution :: rest => do
    check category condition
    checkAll category execution
    checkBranches category rest

/-- Whether a continuation belongs where it stands. -/
def checkNext (category : Category) : Option Expression → Except LoweringError Unit
  | none => .ok ()
  | some e => check category e

end

end Expression

/-- Whether a pattern has a name and an inline definition. -/
def Pattern.check (p : Pattern) : Except LoweringError Unit :=
  if p.name.isEmpty then .error (Defect.patternUnnamed.errorAt p.position)
  else p.definition.check .inline

def checkPatterns : List Pattern → Except LoweringError Unit
  | [] => .ok ()
  | p :: rest => do
    p.check
    checkPatterns rest

def Body.check : Body → Except LoweringError Unit
  | .constexpr _ expressions => Expression.checkAll .constexpr expressions
  | .block _ instructions => Expression.checkAll .block instructions
  | .pattern _ patterns => checkPatterns patterns

end FrontEnd
