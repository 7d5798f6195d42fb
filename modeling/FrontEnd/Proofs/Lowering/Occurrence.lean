import FrontEnd.Proofs.Lowering.Language
import FrontEnd.Proofs.Lowering.Outcome

/-!
# Where expressions occur

An expression occurs in another at the end of a path, which says of each step whether it goes to the condition
of a conditional block, to something else that is enclosed, or to what follows in the chain. What is accepted
as an inline or a constant expression is of that language wherever one looks into it, and what is accepted as
an instruction is so down the conditions of conditional blocks and inline everywhere else.

So the three categories are related as their names suggest (`Expression.categories_related`): inline is
constant without literals, and from the first links that all categories share an instruction is an inline
expression.
-/

namespace FrontEnd

namespace Expression

/-! ## Occurrences -/

/-- A way from an expression to one right below it. -/
inductive Way where
  /-- From a conditional block to its condition. -/
  | guard
  /-- To anything else that is enclosed. -/
  | inside
  /-- To what follows in the chain. -/
  | next
  deriving DecidableEq

/-- The expressions that a branch encloses. -/
def branchItems (b : SubConditional) : List Expression := b.condition :: b.execution

/-- The expressions right below an expression, each with the way to it. -/
def beneath : Expression → List (Way × Expression)
  | .blockConditional _ condition execution branches alternative =>
    (.guard, condition) ::
      (execution ++ branches.flatMap branchItems ++ alternative).map fun e => (.inside, e)
  | .label _ _ resolution => [(.inside, resolution)]
  | .inlineConditional _ condition execution => [(.inside, condition), (.inside, execution)]
  | .parenthetical _ execution next => (.inside, execution) :: next.toList.map fun e => (.next, e)
  | .capture _ execution next => (.inside, execution) :: next.toList.map fun e => (.next, e)
  | .reference _ _ next => next.toList.map fun e => (.next, e)
  | .operator _ _ next => next.toList.map fun e => (.next, e)
  | .literal .. => []

/-- An expression stands at the end of a path of ways down from another, nested in it or chained after it at
any depth. -/
inductive Occurs (x : Expression) : List Way → Expression → Prop
  | here : Occurs x [] x
  | step {way : Way} {path : List Way} {e y : Expression} (down : (way, y) ∈ e.beneath)
      (rest : Occurs x path y) : Occurs x (way :: path) e

def isLiteral : Expression → Bool
  | .literal .. => true
  | _ => false

/-- Whether an expression is of a kind that only instructions have. -/
def isStatement : Expression → Bool
  | .blockConditional .. => true
  | .label .. => true
  | .inlineConditional .. => true
  | _ => false

/-- Whether an expression is of a kind that every category has. -/
def isCommon : Expression → Bool
  | .parenthetical .. => true
  | .capture .. => true
  | .reference .. => true
  | _ => false

/-! ## Looking into the languages -/

namespace Plain

variable {literals : Prop} {e x : Expression}

/-- What is right below an expression of a plain language is of that language. -/
theorem of_mem_beneath {way : Way} {y : Expression} (h : Plain literals e) (hy : (way, y) ∈ e.beneath) :
    Plain literals y := by
  have hfollowing : ∀ next : Option Expression, (∀ e ∈ next, Plain literals e) →
      (way, y) ∈ next.toList.map (fun e => (Way.next, e)) → Plain literals y := by
    intro next hnext hmem
    obtain ⟨z, hz, heq⟩ := List.mem_map.mp hmem
    obtain ⟨-, rfl⟩ := Prod.mk.inj heq
    exact hnext z (Option.mem_toList.mp hz)
  cases h with
  | parenthetical hexecution hnext =>
    rcases List.mem_cons.mp hy with heq | hy
    · obtain ⟨-, rfl⟩ := Prod.mk.inj heq
      exact hexecution
    · exact hfollowing _ hnext hy
  | capture hexecution hnext =>
    rcases List.mem_cons.mp hy with heq | hy
    · obtain ⟨-, rfl⟩ := Prod.mk.inj heq
      exact hexecution
    · exact hfollowing _ hnext hy
  | reference hnext => exact hfollowing _ hnext hy
  | operator hnext => exact hfollowing _ hnext hy
  | literal => cases hy

theorem of_occurs {path : List Way} (h : Plain literals e) (hx : x.Occurs path e) :
    Plain literals x := by
  induction hx with
  | here => exact h
  | step down _ ih => exact ih (h.of_mem_beneath down)

/-- What is accepted without literals is accepted with them. -/
theorem mono {more : Prop} (h : Plain literals e) (hmore : literals → more) : Plain more e := by
  induction h with
  | parenthetical _ _ ihexecution ihnext => exact .parenthetical ihexecution ihnext
  | capture _ _ ihexecution ihnext => exact .capture ihexecution ihnext
  | reference _ ihnext => exact .reference ihnext
  | operator _ ihnext => exact .operator ihnext
  | literal h => exact .literal (hmore h)

theorem isStatement_eq_false (h : Plain literals e) : e.isStatement = false := by
  cases h <;> rfl

theorem literals_of_isLiteral (h : Plain literals e) (he : e.isLiteral = true) : literals := by
  cases h with
  | literal h => exact h
  | _ => cases he

end Plain

/-- An inline expression is a constant one in which no literal occurs. -/
theorem inline_iff_constexpr (e : Expression) :
    Inline e ↔ Constexpr e ∧ ∀ path x, Occurs x path e → x.isLiteral = false := by
  constructor
  · intro h
    refine ⟨h.mono False.elim, fun path x hx => ?_⟩
    exact Bool.eq_false_iff.mpr (h.of_occurs hx).literals_of_isLiteral
  · rintro ⟨h, hfree⟩
    -- What does not occur in an expression does not occur right below it.
    have hdown : ∀ (way : Way) {e y : Expression}, (way, y) ∈ e.beneath →
        (∀ path x, Occurs x path e → x.isLiteral = false) →
        ∀ path x, Occurs x path y → x.isLiteral = false :=
      fun way _ _ down hfree path x hx => hfree (way :: path) x (.step down hx)
    induction h with
    | parenthetical _ _ ihexecution ihnext =>
      refine .parenthetical (ihexecution (hdown .inside ?_ hfree)) fun e he =>
        ihnext e he (hdown .next ?_ hfree)
      · simp [beneath]
      · simpa [beneath] using he
    | capture _ _ ihexecution ihnext =>
      refine .capture (ihexecution (hdown .inside ?_ hfree)) fun e he =>
        ihnext e he (hdown .next ?_ hfree)
      · simp [beneath]
      · simpa [beneath] using he
    | reference _ ihnext =>
      refine .reference fun e he => ihnext e he (hdown .next ?_ hfree)
      simpa [beneath] using he
    | operator _ ihnext =>
      refine .operator fun e he => ihnext e he (hdown .next ?_ hfree)
      simpa [beneath] using he
    | literal => cases hfree [] _ .here

/-- On the first links that all categories share, the language of instructions is the inline one. -/
theorem block_iff_inline {e : Expression} (h : e.isCommon = true) : Block e ↔ Inline e := by
  constructor
  · intro hblock
    cases hblock with
    | parenthetical hexecution hnext => exact .parenthetical hexecution hnext
    | capture hexecution hnext => exact .capture hexecution hnext
    | reference hnext => exact .reference hnext
    | _ => cases h
  · intro hinline
    cases hinline with
    | parenthetical hexecution hnext => exact .parenthetical hexecution hnext
    | capture hexecution hnext => exact .capture hexecution hnext
    | reference hnext => exact .reference hnext
    | _ => cases h

namespace Block

variable {e x : Expression}

/-- Right below an instruction stand inline expressions, but for the condition of a conditional block. -/
theorem of_mem_beneath {way : Way} {y : Expression} (h : Block e) (hy : (way, y) ∈ e.beneath) :
    way = .guard ∧ Block y ∨ Inline y := by
  by_cases hcommon : e.isCommon = true
  · exact .inr (((block_iff_inline hcommon).mp h).of_mem_beneath hy)
  cases h with
  | parenthetical => exact absurd rfl hcommon
  | capture => exact absurd rfl hcommon
  | reference => exact absurd rfl hcommon
  | label hresolution =>
    obtain ⟨-, rfl⟩ := Prod.mk.inj (List.mem_singleton.mp hy)
    exact .inr hresolution
  | inlineConditional hcondition hexecution =>
    simp only [beneath, List.mem_cons, Prod.mk.injEq, List.not_mem_nil, or_false] at hy
    obtain ⟨-, rfl⟩ | ⟨-, rfl⟩ := hy
    · exact .inr hcondition
    · exact .inr hexecution
  | blockConditional hcondition hexecution hbranches halternative =>
    rcases List.mem_cons.mp hy with heq | hy
    · obtain ⟨rfl, rfl⟩ := Prod.mk.inj heq
      exact .inl ⟨rfl, hcondition⟩
    · obtain ⟨z, hz, heq⟩ := List.mem_map.mp hy
      obtain ⟨-, rfl⟩ := Prod.mk.inj heq
      simp only [List.mem_append, List.mem_flatMap] at hz
      obtain (hz | ⟨b, hb, hz⟩) | hz := hz
      · exact .inr (hexecution z hz)
      · rcases List.mem_cons.mp hz with rfl | hz
        · exact .inr (hbranches b hb).1
        · exact .inr ((hbranches b hb).2 z hz)
      · exact .inr (halternative z hz)

/-- What occurs in an instruction is an instruction down the conditions of conditional blocks, and inline
anywhere else. -/
theorem of_occurs {path : List Way} (h : Block e) (hx : x.Occurs path e) :
    (∀ way ∈ path, way = .guard) ∧ Block x ∨ Inline x := by
  induction hx with
  | here => exact .inl ⟨by simp, h⟩
  | step down rest ih =>
    rcases h.of_mem_beneath down with ⟨rfl, hy⟩ | hy
    · exact (ih hy).imp_left fun ⟨hpath, hx⟩ => ⟨List.forall_mem_cons.mpr ⟨rfl, hpath⟩, hx⟩
    · exact .inr (hy.of_occurs rest)

theorem isLiteral_eq_false (h : Block e) : e.isLiteral = false := by
  cases h <;> rfl

end Block

/-! ## Looking into what is accepted -/

/-- In what is accepted anywhere, literals occur in constant expressions alone, and the kinds that only
instructions have occur in instructions alone, down the conditions of conditional blocks. -/
theorem occurs_of_check {category : Category} {e x : Expression} {path : List Way}
    (h : check category e = .ok ()) (hx : x.Occurs path e) :
    (x.isLiteral = true → category = .constexpr) ∧
      (x.isStatement = true → category = .block ∧ ∀ way ∈ path, way = .guard) := by
  by_cases hc : category = .block
  · subst hc
    rcases ((check_block_eq_ok_iff e).mp h).of_occurs hx with ⟨hpath, hx⟩ | hx
    · exact ⟨fun hliteral => by simp [hx.isLiteral_eq_false] at hliteral, fun _ => ⟨rfl, hpath⟩⟩
    · exact ⟨fun hliteral => (hx.literals_of_isLiteral hliteral).elim,
        fun hstatement => by simp [hx.isStatement_eq_false] at hstatement⟩
  · have hplain := ((check_eq_ok_iff_plain hc e).mp h).of_occurs hx
    exact ⟨hplain.literals_of_isLiteral,
      fun hstatement => by simp [hplain.isStatement_eq_false] at hstatement⟩

end Expression

/-! ## Bodies and functions -/

/-- The category in which the expressions of a body stand. -/
def Body.category : Body → Category
  | .constexpr .. => .constexpr
  | .block .. => .block
  | .pattern .. => .inline

theorem Body.check_of_mem_items {b : Body} (h : b.check = .ok ()) {e : Expression} (he : e ∈ b.items) :
    e.check b.category = .ok () := by
  cases b with
  | constexpr _ expressions => exact (Expression.checkAll_eq_ok_iff _ expressions).mp h e he
  | block _ instructions => exact (Expression.checkAll_eq_ok_iff _ instructions).mp h e he
  | pattern _ patterns =>
    obtain ⟨p, hp, rfl⟩ := List.mem_map.mp he
    exact (Expression.check_inline_eq_ok_iff _).mpr ((checkPatterns_eq_ok_iff patterns).mp h p hp).2

theorem FunctionDecl.check_body_of_lower {f : FunctionDecl} {id : UInt64} {d : Declaration}
    (h : f.lower id = .ok d) : f.body.check = .ok () := by
  rw [f.lower_eq_settle, settle_eq_ok_iff, FunctionDecl.flaws, List.append_eq_nil_iff] at h
  rw [f.body.check_eq_settle, settle_eq_ok_iff]
  exact ⟨h.1.2, rfl⟩

/-- **How the categories are related.** An expression is accepted as inline exactly if it is accepted as
constant and no literal occurs in it, nested or chained. An expression that begins as all categories allow is
accepted as an instruction exactly if it is accepted as inline. So in a function that can be lowered literals
occur in constant bodies alone; conditional blocks, labels and inline conditionals occur in blocks alone, and
there only first in an instruction or in a condition to which a conditional block leads from it. -/
theorem Expression.categories_related :
    (∀ e : Expression, e.check .inline = .ok () ↔
      e.check .constexpr = .ok () ∧ ∀ path x, Occurs x path e → x.isLiteral = false) ∧
    (∀ e : Expression, e.isCommon = true → (e.check .block = .ok () ↔ e.check .inline = .ok ())) ∧
    ∀ (f : FunctionDecl) (id : UInt64) (d : Declaration), f.lower id = .ok d →
      ∀ e ∈ f.body.items, ∀ path x, Occurs x path e →
        (x.isLiteral = true → f.body.category = .constexpr) ∧
        (x.isStatement = true → f.body.category = .block ∧ ∀ way ∈ path, way = .guard) := by
  refine ⟨fun e => ?_, fun e hcommon => ?_, fun f id d hlower e he path x hx => ?_⟩
  · rw [check_inline_eq_ok_iff, check_constexpr_eq_ok_iff, inline_iff_constexpr]
  · rw [check_block_eq_ok_iff, check_inline_eq_ok_iff, block_iff_inline hcommon]
  · exact occurs_of_check (Body.check_of_mem_items (FunctionDecl.check_body_of_lower hlower) he) hx

/-- A conditional block whose condition is a conditional block whose condition is a label. -/
def guardedSample : Expression :=
  .blockConditional {} (.blockConditional {} (.label {} "x" (.reference {} ["y"] none)) [] [] [])
    [.operator {} "+" (some (.reference {} ["x"] none))] [] []

/-- A function with this instruction alone can be lowered. -/
theorem Expression.categories_related_guardedSample :
    (∃ d, FunctionDecl.lower { name := .capture "main", body := .block {} [guardedSample] } 1 = .ok d) ∧
      Occurs (.label {} "x" (.reference {} ["y"] none)) [.guard, .guard] guardedSample ∧
      ∀ way ∈ [Way.guard, .guard], way = .guard := by
  have hoccurs : Occurs (.label {} "x" (.reference {} ["y"] none)) [.guard, .guard] guardedSample :=
    .step List.mem_cons_self (.step List.mem_cons_self .here)
  have hrelated := categories_related.2.2 { name := .capture "main", body := .block {} [guardedSample] } 1
    _ rfl guardedSample List.mem_cons_self _ _ hoccurs
  exact ⟨⟨_, rfl⟩, hoccurs, (hrelated.2 rfl).2⟩

end FrontEnd
