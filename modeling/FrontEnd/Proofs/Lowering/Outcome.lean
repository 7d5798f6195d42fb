import FrontEnd.Proofs.Lowering.Flaw

/-!
# What each construct is lowered to

For every function of the lowering one equation: it settles the flaws of what it is given, and its result
is the plain copy that this module writes down, `TypeExpr.toRef` for a type, `Input.parameter` for an input
and `declaration` for a struct or a function. Later modules use these equations and no definition of a
lowering function.
-/

namespace FrontEnd

/-! ## Plain copies -/

mutual

/-- The same type as a type of a declaration, node by node. -/
def TypeExpr.toRef : TypeExpr → TypeRef
  | .mk name generics => .mk name (TypeExpr.toRefs generics)

/-- The same types, node by node. -/
def TypeExpr.toRefs : List TypeExpr → List TypeRef
  | [] => []
  | t :: ts => t.toRef :: TypeExpr.toRefs ts

end

/-- The parameter with the name and the type of an input. -/
def Input.parameter (i : Input) : Parameter := { name := i.name, type := i.type.toRef }

/-- The declaration of a struct: its fields are the inputs, and it returns its own type. -/
def StructDecl.declaration (s : StructDecl) (id : UInt64) : Declaration where
  id := id
  name := s.name
  inputs := s.fields.map Input.parameter
  returnType := some (.mk s.name [])
  definition := {
    isStruct := true, isFunction := false, isOperator := false, annotation := "", expressions := [] }

def FunctionDecl.declaration (f : FunctionDecl) (id : UInt64) : Declaration where
  id := id
  name := f.name.name
  inputs := f.inputs.map Input.parameter
  returnType := f.returnType.map TypeExpr.toRef
  definition := {
    isStruct := false, isFunction := true, isOperator := f.name.isOperator
    annotation := f.annotation.getD "", expressions := [] }

/-! ## Sequences of walks -/

section Sequences

variable {α β : Type}

theorem settle_bind_pure (flaws : List Flaw) (a : α) (f : α → β) :
    (settle flaws a >>= fun x => pure (f x)) = settle flaws (f a) := by
  cases flaws <;> rfl

theorem settle_then (flaws more : List Flaw) (b : β) :
    (settle flaws () >>= fun _ => settle more b) = settle (flaws ++ more) b :=
  settle_bind rfl

theorem settle_cons (flaws more : List Flaw) (a : α) (as : List α) :
    (settle flaws a >>= fun x => settle more as >>= fun xs => pure (x :: xs))
      = settle (flaws ++ more) (a :: as) :=
  settle_bind (settle_bind_pure more as (a :: ·))

end Sequences

/-! ## Types and inputs -/

mutual

theorem TypeExpr.lower_eq_settle (position : Position) :
    ∀ t : TypeExpr, t.lower position = settle (t.flaws position) t.toRef
  | .mk name generics => by
    rw [TypeExpr.lower, TypeExpr.lowerAll_eq_settle position generics, map_settle, settle_unnamed,
      TypeExpr.flaws, TypeExpr.names, List.flatMap_cons, TypeExpr.toRef]

theorem TypeExpr.lowerAll_eq_settle (position : Position) :
    ∀ ts : List TypeExpr, TypeExpr.lowerAll position ts
      = settle ((TypeExpr.namesOfAll ts).flatMap (unnamed .typeUnnamed position)) (TypeExpr.toRefs ts)
  | [] => rfl
  | t :: ts => by
    rw [TypeExpr.lowerAll, TypeExpr.lower_eq_settle position t,
      TypeExpr.lowerAll_eq_settle position ts, settle_cons, TypeExpr.flaws, TypeExpr.namesOfAll,
      List.flatMap_append, TypeExpr.toRefs]

end

theorem Input.lower_eq_settle (i : Input) : i.lower = settle i.flaws i.parameter := by
  rw [Input.lower, TypeExpr.lower_eq_settle, map_settle, settle_unnamed]
  rfl

theorem lowerInputs_eq_settle (inputs : List Input) :
    lowerInputs inputs = settle (inputs.flatMap Input.flaws) (inputs.map Input.parameter) := by
  induction inputs with
  | nil => rfl
  | cons i rest ih =>
    rw [lowerInputs, i.lower_eq_settle, ih, settle_cons, List.flatMap_cons, List.map_cons]

theorem lowerReturnType_eq_settle (position : Position) (type : Option TypeExpr) :
    lowerReturnType position type
      = settle (returnTypeFlaws position type) (type.map TypeExpr.toRef) := by
  cases type with
  | none => rfl
  | some t =>
    rw [lowerReturnType, TypeExpr.lower_eq_settle, map_settle]
    rfl

/-! ## Bodies -/

namespace Expression

theorem checkPlace_eq_settle (category : Category) (e : Expression) :
    checkPlace category e = settle (misplacement (e, category)) () := by
  unfold checkPlace misplacement
  split <;> rfl

mutual

theorem check_eq_settle (category : Category) :
    ∀ e : Expression, check category e = settle (e.flaws category) ()
  | .blockConditional _ condition execution branches alternative => by
    simp only [check, checkPlace_eq_settle, check_eq_settle .block condition,
      checkAll_eq_settle category.nested execution, checkBranches_eq_settle category.nested branches,
      checkAll_eq_settle category.nested alternative, settle_then, flaws, places,
      List.flatMap_cons, List.flatMap_append, List.append_assoc]
  | .label _ _ resolution => by
    simp only [check, checkPlace_eq_settle, check_eq_settle category.nested resolution, settle_then,
      flaws, places, List.flatMap_cons]
  | .inlineConditional _ condition execution => by
    simp only [check, checkPlace_eq_settle, check_eq_settle category.nested condition,
      check_eq_settle category.nested execution, settle_then, flaws, places,
      List.flatMap_cons, List.flatMap_append]
  | .parenthetical _ execution next => by
    simp only [check, checkPlace_eq_settle, check_eq_settle category.nested execution,
      checkNext_eq_settle category.nested next, settle_then, flaws, places,
      List.flatMap_cons, List.flatMap_append]
  | .capture _ execution next => by
    simp only [check, checkPlace_eq_settle, check_eq_settle category.nested execution,
      checkNext_eq_settle category.nested next, settle_then, flaws, places,
      List.flatMap_cons, List.flatMap_append]
  | .reference _ _ next => by
    simp only [check, checkPlace_eq_settle, checkNext_eq_settle category.nested next, settle_then,
      flaws, places, List.flatMap_cons]
  | .operator _ _ next => by
    simp only [check, checkPlace_eq_settle, checkNext_eq_settle category.nested next, settle_then,
      flaws, places, List.flatMap_cons]
  | .literal _ _ => by
    simp only [check, checkPlace_eq_settle, flaws, places, List.flatMap_cons, List.flatMap_nil,
      List.append_nil]

theorem checkAll_eq_settle (category : Category) :
    ∀ es : List Expression,
      checkAll category es = settle ((placesOfAll category es).flatMap misplacement) ()
  | [] => rfl
  | e :: es => by
    simp only [checkAll, check_eq_settle category e, checkAll_eq_settle category es, settle_then,
      flaws, placesOfAll, List.flatMap_append]

theorem checkBranches_eq_settle (category : Category) :
    ∀ branches : List SubConditional,
      checkBranches category branches
        = settle ((placesOfBranches category branches).flatMap misplacement) ()
  | [] => rfl
  | .mk _ condition execution :: rest => by
    simp only [checkBranches, check_eq_settle category condition,
      checkAll_eq_settle category execution, checkBranches_eq_settle category rest, settle_then,
      flaws, placesOfBranches, List.flatMap_append, List.append_assoc]

theorem checkNext_eq_settle (category : Category) :
    ∀ next : Option Expression,
      checkNext category next = settle ((placesOfNext category next).flatMap misplacement) ()
  | none => rfl
  | some e => by rw [checkNext, check_eq_settle category e, flaws, placesOfNext]

end

theorem flatMap_flaws (category : Category) (es : List Expression) :
    es.flatMap (flaws category) = (placesOfAll category es).flatMap misplacement := by
  induction es with
  | nil => rfl
  | cons e es ih => rw [List.flatMap_cons, ih, flaws, placesOfAll, List.flatMap_append]

end Expression

theorem Pattern.check_eq_settle (p : Pattern) : p.check = settle p.flaws () := by
  rw [Pattern.check, Expression.check_eq_settle, settle_unnamed]
  rfl

theorem checkPatterns_eq_settle (patterns : List Pattern) :
    checkPatterns patterns = settle (patterns.flatMap Pattern.flaws) () := by
  induction patterns with
  | nil => rfl
  | cons p rest ih => rw [checkPatterns, p.check_eq_settle, ih, settle_then, List.flatMap_cons]

theorem Body.check_eq_settle (b : Body) : b.check = settle b.flaws () := by
  cases b with
  | constexpr _ expressions =>
    rw [Body.check, Expression.checkAll_eq_settle, ← Expression.flatMap_flaws]
    rfl
  | block _ instructions =>
    rw [Body.check, Expression.checkAll_eq_settle, ← Expression.flatMap_flaws]
    rfl
  | pattern _ patterns =>
    rw [Body.check, checkPatterns_eq_settle]
    rfl

/-! ## Declarations -/

theorem StructDecl.lower_eq_settle (s : StructDecl) (id : UInt64) :
    s.lower id = settle s.flaws (s.declaration id) := by
  rw [StructDecl.lower, lowerInputs_eq_settle, settle_bind_pure, settle_unnamed]
  rfl

theorem FunctionDecl.lower_eq_settle (f : FunctionDecl) (id : UInt64) :
    f.lower id = settle f.flaws (f.declaration id) := by
  rw [FunctionDecl.lower, lowerInputs_eq_settle, lowerReturnType_eq_settle, Body.check_eq_settle,
    FunctionDecl.flaws, List.append_assoc, List.append_assoc, ← settle_unnamed]
  congr 1
  refine settle_bind (settle_bind ?_)
  exact settle_bind_pure f.body.flaws () fun _ => f.declaration id

/-! ## Imports -/

theorem importNames_result (position : Position) (names : List String) :
    (importNames position names).result
      = settle (names.flatMap (unnamed .emptyImportedName position)) (names.map ImportName.mk) := by
  induction names with
  | nil => rfl
  | cons name rest ih =>
    have hmap := congrArg (Except.map fun others => (⟨name⟩ : ImportName) :: others) ih
    rw [map_settle] at hmap
    rw [importNames, List.flatMap_cons, ← settle_unnamed, List.map_cons, ← hmap]
    split <;> rfl

theorem Import.lower_result (i : Import) :
    i.lower.result = settle i.flaws (i.names.map ImportName.mk) := by
  unfold Import.lower Import.flaws
  cases hn : i.names with
  | nil => rfl
  | cons name rest => exact importNames_result i.position (name :: rest)

theorem Import.exists_lower_eq (i : Import) :
    ∃ log, i.lower = { log, result := settle i.flaws (i.names.map ImportName.mk) } :=
  ⟨i.lower.log, by rw [← i.lower_result]⟩

end FrontEnd
