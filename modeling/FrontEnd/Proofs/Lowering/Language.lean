import FrontEnd.Lowering.Validity

/-!
# The languages of bodies

Three languages of expressions, each by the rules of its own: `Inline`, `Constexpr` and `Block`. A body is
valid exactly if its expressions are in the language of its form (`Body.check_eq_ok_iff_inLanguage`).

Inline and constant expressions differ in literals only, so both are cases of `Plain`. A block instruction
is inline below its first expression, except for the condition of a conditional block, which is an
instruction again; hence `Block` is about the first expression and refers to `Inline` for the rest.
-/

namespace FrontEnd

/-- The condition of a branch. -/
def SubConditional.condition : SubConditional → Expression
  | .mk _ condition _ => condition

/-- What is executed in a branch. -/
def SubConditional.execution : SubConditional → List Expression
  | .mk _ _ execution => execution

namespace Expression

/-! ## The rules -/

/-- The expressions that consist of parentheticals, captures, references and operators, in what they
enclose and in what follows them as well, and of literals if these are allowed. -/
inductive Plain (literals : Prop) : Expression → Prop
  | parenthetical {position : Position} {execution : Expression} {next : Option Expression} :
    Plain literals execution → (∀ e ∈ next, Plain literals e) →
      Plain literals (.parenthetical position execution next)
  | capture {position : Position} {execution : Expression} {next : Option Expression} :
    Plain literals execution → (∀ e ∈ next, Plain literals e) →
      Plain literals (.capture position execution next)
  | reference {position : Position} {names : List String} {next : Option Expression} :
    (∀ e ∈ next, Plain literals e) → Plain literals (.reference position names next)
  | operator {position : Position} {sign : String} {next : Option Expression} :
    (∀ e ∈ next, Plain literals e) → Plain literals (.operator position sign next)
  | literal {position : Position} {value : Value} :
    literals → Plain literals (.literal position value)

/-- The inline expressions have no literals. -/
def Inline (e : Expression) : Prop := Plain False e

/-- The constant expressions may have literals. -/
def Constexpr (e : Expression) : Prop := Plain True e

/-- The instructions of a block. -/
inductive Block : Expression → Prop
  | parenthetical {position : Position} {execution : Expression} {next : Option Expression} :
    Inline execution → (∀ e ∈ next, Inline e) → Block (.parenthetical position execution next)
  | capture {position : Position} {execution : Expression} {next : Option Expression} :
    Inline execution → (∀ e ∈ next, Inline e) → Block (.capture position execution next)
  | reference {position : Position} {names : List String} {next : Option Expression} :
    (∀ e ∈ next, Inline e) → Block (.reference position names next)
  | label {position : Position} {name : String} {resolution : Expression} :
    Inline resolution → Block (.label position name resolution)
  | inlineConditional {position : Position} {condition execution : Expression} :
    Inline condition → Inline execution → Block (.inlineConditional position condition execution)
  | blockConditional {position : Position} {condition : Expression}
      {execution alternative : List Expression} {branches : List SubConditional} :
    Block condition → (∀ e ∈ execution, Inline e) →
      (∀ b ∈ branches, Inline b.condition ∧ ∀ e ∈ b.execution, Inline e) →
      (∀ e ∈ alternative, Inline e) →
      Block (.blockConditional position condition execution branches alternative)

/-! ## Successful checks -/

theorem then_eq_ok_iff {x y : Except LoweringError Unit} :
    (x >>= fun _ => y) = .ok () ↔ x = .ok () ∧ y = .ok () := by
  cases x with
  | error e =>
    constructor
    · intro h
      cases h
    · rintro ⟨h, -⟩
      cases h
  | ok u =>
    constructor
    · intro h
      exact ⟨rfl, h⟩
    · rintro ⟨-, h⟩
      exact h

theorem checkPlace_eq_ok_iff (category : Category) (e : Expression) :
    checkPlace category e = .ok () ↔ e.belongsTo category = true := by
  unfold checkPlace
  by_cases h : e.belongsTo category = true <;> simp [h]

theorem checkAll_eq_ok_iff (category : Category) (es : List Expression) :
    checkAll category es = .ok () ↔ ∀ e ∈ es, check category e = .ok () := by
  induction es with
  | nil => simp [checkAll]
  | cons e es ih => rw [checkAll, then_eq_ok_iff, ih, List.forall_mem_cons]

theorem checkBranches_eq_ok_iff (category : Category) (branches : List SubConditional) :
    checkBranches category branches = .ok () ↔ ∀ b ∈ branches,
      check category b.condition = .ok () ∧ ∀ e ∈ b.execution, check category e = .ok () := by
  induction branches with
  | nil => simp [checkBranches]
  | cons b branches ih =>
    obtain ⟨position, condition, execution⟩ := b
    rw [checkBranches, then_eq_ok_iff, then_eq_ok_iff, ih, List.forall_mem_cons,
      checkAll_eq_ok_iff, ← and_assoc]
    rfl

theorem checkNext_eq_ok_iff (category : Category) (next : Option Expression) :
    checkNext category next = .ok () ↔ ∀ e ∈ next, check category e = .ok () := by
  cases next <;> simp [checkNext]

/-! ## Checks and languages -/

theorem nested_of_ne_block {category : Category} (hc : category ≠ .block) :
    category.nested = category := by
  cases category with
  | block => exact absurd rfl hc
  | inline => rfl
  | constexpr => rfl

theorem isConstexpr_of_isInline {e : Expression} (h : e.isInline = true) : e.isConstexpr = true := by
  unfold isConstexpr
  split
  · rfl
  · exact h

theorem belongsTo_of_isInline {category : Category} {e : Expression} (hc : category ≠ .block)
    (h : e.isInline = true) : e.belongsTo category = true := by
  cases category with
  | block => exact absurd rfl hc
  | inline => exact h
  | constexpr => exact isConstexpr_of_isInline h

theorem isConstexpr_of_belongsTo {category : Category} {e : Expression} (hc : category ≠ .block)
    (h : e.belongsTo category = true) : e.isConstexpr = true := by
  cases category with
  | block => exact absurd rfl hc
  | inline => exact isConstexpr_of_isInline h
  | constexpr => exact h

theorem then_ne_ok_of_not_isConstexpr {category : Category} {e : Expression} (hc : category ≠ .block)
    (h : e.isConstexpr = false) (rest : Except LoweringError Unit) :
    (checkPlace category e >>= fun _ => rest) ≠ .ok () := by
  rw [Ne, then_eq_ok_iff, checkPlace_eq_ok_iff]
  rintro ⟨hplace, -⟩
  exact Bool.false_ne_true (h.symm.trans (isConstexpr_of_belongsTo hc hplace))

mutual

/-- Below the first expression of an instruction one category holds throughout, and what is accepted there
is a plain language. -/
theorem check_eq_ok_iff_plain {category : Category} (hc : category ≠ .block) :
    ∀ e : Expression, check category e = .ok () ↔ Plain (category = .constexpr) e
  | .blockConditional .. =>
    ⟨fun h => absurd h (then_ne_ok_of_not_isConstexpr hc rfl _), fun h => by cases h⟩
  | .label .. =>
    ⟨fun h => absurd h (then_ne_ok_of_not_isConstexpr hc rfl _), fun h => by cases h⟩
  | .inlineConditional .. =>
    ⟨fun h => absurd h (then_ne_ok_of_not_isConstexpr hc rfl _), fun h => by cases h⟩
  | .parenthetical _ execution next => by
    rw [check, then_eq_ok_iff, then_eq_ok_iff, checkPlace_eq_ok_iff, nested_of_ne_block hc,
      check_eq_ok_iff_plain hc execution, checkNext_eq_ok_iff_plain hc next]
    constructor
    · rintro ⟨-, hexecution, hnext⟩
      exact .parenthetical hexecution hnext
    · rintro (⟨hexecution, hnext⟩)
      exact ⟨belongsTo_of_isInline hc rfl, hexecution, hnext⟩
  | .capture _ execution next => by
    rw [check, then_eq_ok_iff, then_eq_ok_iff, checkPlace_eq_ok_iff, nested_of_ne_block hc,
      check_eq_ok_iff_plain hc execution, checkNext_eq_ok_iff_plain hc next]
    constructor
    · rintro ⟨-, hexecution, hnext⟩
      exact .capture hexecution hnext
    · intro h
      cases h with
      | capture hexecution hnext => exact ⟨belongsTo_of_isInline hc rfl, hexecution, hnext⟩
  | .reference _ _ next => by
    rw [check, then_eq_ok_iff, checkPlace_eq_ok_iff, nested_of_ne_block hc,
      checkNext_eq_ok_iff_plain hc next]
    constructor
    · rintro ⟨-, hnext⟩
      exact .reference hnext
    · intro h
      cases h with
      | reference hnext => exact ⟨belongsTo_of_isInline hc rfl, hnext⟩
  | .operator _ _ next => by
    rw [check, then_eq_ok_iff, checkPlace_eq_ok_iff, nested_of_ne_block hc,
      checkNext_eq_ok_iff_plain hc next]
    constructor
    · rintro ⟨-, hnext⟩
      exact .operator hnext
    · intro h
      cases h with
      | operator hnext => exact ⟨belongsTo_of_isInline hc rfl, hnext⟩
  | .literal .. => by
    rw [check, checkPlace_eq_ok_iff]
    constructor
    · intro hplace
      cases category with
      | block => exact absurd rfl hc
      | inline => cases hplace
      | constexpr => exact .literal rfl
    · intro h
      cases h with
      | literal hliterals => rw [hliterals]; rfl

theorem checkNext_eq_ok_iff_plain {category : Category} (hc : category ≠ .block) :
    ∀ next : Option Expression,
      checkNext category next = .ok () ↔ ∀ e ∈ next, Plain (category = .constexpr) e
  | none => by simp [checkNext]
  | some e => by simp [checkNext, check_eq_ok_iff_plain hc e]

end

theorem check_inline_eq_ok_iff (e : Expression) : check .inline e = .ok () ↔ Inline e := by
  rw [check_eq_ok_iff_plain (by decide) e, Inline, eq_false (show Category.inline ≠ .constexpr by decide)]

theorem check_constexpr_eq_ok_iff (e : Expression) : check .constexpr e = .ok () ↔ Constexpr e := by
  rw [check_eq_ok_iff_plain (by decide) e, Constexpr, eq_self]

/-- Only the condition of a conditional block is an instruction again, so the recursion is on it alone. -/
theorem check_block_eq_ok_iff : ∀ e : Expression, check .block e = .ok () ↔ Block e
  | .blockConditional _ condition execution branches alternative => by
    rw [check, then_eq_ok_iff, then_eq_ok_iff, then_eq_ok_iff, then_eq_ok_iff, checkPlace_eq_ok_iff,
      check_block_eq_ok_iff condition, checkAll_eq_ok_iff, checkBranches_eq_ok_iff,
      checkAll_eq_ok_iff]
    simp only [Category.nested, check_inline_eq_ok_iff]
    constructor
    · rintro ⟨-, hcondition, hexecution, hbranches, halternative⟩
      exact .blockConditional hcondition hexecution hbranches halternative
    · intro h
      cases h with
      | blockConditional hcondition hexecution hbranches halternative =>
        exact ⟨rfl, hcondition, hexecution, hbranches, halternative⟩
  | .label .. => by
    rw [check, then_eq_ok_iff, checkPlace_eq_ok_iff]
    simp only [Category.nested, check_inline_eq_ok_iff]
    constructor
    · rintro ⟨-, hresolution⟩
      exact .label hresolution
    · intro h
      cases h with
      | label hresolution => exact ⟨rfl, hresolution⟩
  | .inlineConditional .. => by
    rw [check, then_eq_ok_iff, then_eq_ok_iff, checkPlace_eq_ok_iff]
    simp only [Category.nested, check_inline_eq_ok_iff]
    constructor
    · rintro ⟨-, hcondition, hexecution⟩
      exact .inlineConditional hcondition hexecution
    · intro h
      cases h with
      | inlineConditional hcondition hexecution => exact ⟨rfl, hcondition, hexecution⟩
  | .parenthetical .. => by
    rw [check, then_eq_ok_iff, then_eq_ok_iff, checkPlace_eq_ok_iff, checkNext_eq_ok_iff]
    simp only [Category.nested, check_inline_eq_ok_iff]
    constructor
    · rintro ⟨-, hexecution, hnext⟩
      exact .parenthetical hexecution hnext
    · intro h
      cases h with
      | parenthetical hexecution hnext => exact ⟨rfl, hexecution, hnext⟩
  | .capture .. => by
    rw [check, then_eq_ok_iff, then_eq_ok_iff, checkPlace_eq_ok_iff, checkNext_eq_ok_iff]
    simp only [Category.nested, check_inline_eq_ok_iff]
    constructor
    · rintro ⟨-, hexecution, hnext⟩
      exact .capture hexecution hnext
    · intro h
      cases h with
      | capture hexecution hnext => exact ⟨rfl, hexecution, hnext⟩
  | .reference .. => by
    rw [check, then_eq_ok_iff, checkPlace_eq_ok_iff, checkNext_eq_ok_iff]
    simp only [Category.nested, check_inline_eq_ok_iff]
    constructor
    · rintro ⟨-, hnext⟩
      exact .reference hnext
    · intro h
      cases h with
      | reference hnext => exact ⟨rfl, hnext⟩
  | .operator .. => ⟨fun h => (by cases h), fun h => by cases h⟩
  | .literal .. => ⟨fun h => (by cases h), fun h => by cases h⟩

end Expression

/-! ## Bodies -/

theorem Pattern.check_eq_ok_iff (p : Pattern) :
    p.check = .ok () ↔ p.name ≠ "" ∧ p.definition.Inline := by
  rw [Pattern.check, ← Expression.check_inline_eq_ok_iff]
  by_cases h : p.name = ""
  · simp [h]
  · simp [h]

theorem checkPatterns_eq_ok_iff (patterns : List Pattern) :
    checkPatterns patterns = .ok () ↔ ∀ p ∈ patterns, p.name ≠ "" ∧ p.definition.Inline := by
  induction patterns with
  | nil => simp [checkPatterns]
  | cons p rest ih =>
    rw [checkPatterns, Expression.then_eq_ok_iff, p.check_eq_ok_iff, ih, List.forall_mem_cons]

/-- The bodies whose expressions are in the language of their form. -/
def Body.InLanguage : Body → Prop
  | .constexpr _ expressions => ∀ e ∈ expressions, e.Constexpr
  | .block _ instructions => ∀ e ∈ instructions, e.Block
  | .pattern _ patterns => ∀ p ∈ patterns, p.name ≠ "" ∧ p.definition.Inline

/-- **Accepted bodies.** A body is valid exactly if its expressions are in the language of its form. -/
theorem Body.check_eq_ok_iff_inLanguage (b : Body) : b.check = .ok () ↔ b.InLanguage := by
  cases b with
  | constexpr _ expressions =>
    rw [Body.check, Expression.checkAll_eq_ok_iff]
    simp only [Expression.check_constexpr_eq_ok_iff, Body.InLanguage]
  | block _ instructions =>
    rw [Body.check, Expression.checkAll_eq_ok_iff]
    simp only [Expression.check_block_eq_ok_iff, Body.InLanguage]
  | pattern _ patterns =>
    rw [Body.check, checkPatterns_eq_ok_iff, Body.InLanguage]

end FrontEnd
