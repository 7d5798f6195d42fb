import FrontEnd.Lowering.Module

/-!
# The flaws of a module

A flaw is a defect and the position under which it is reported. `Module.flaws` lists all of them in the
order in which a reader meets them, from the first part to the last and within a declaration from its name
to its body. Nothing is decided here about what a flaw leads to: `settle` says it once, the first flaw is
the error and without a flaw there is a result.

The expressions of a body are listed by `Expression.places`, each with the category that its place asks
for; a flaw of a body is a place with an expression that does not belong there.
-/

namespace FrontEnd

/-- A defect, and the position under which it is reported. -/
structure Flaw where
  defect : Defect
  position : Position

def Flaw.error (flaw : Flaw) : LoweringError :=
  .malformed flaw.defect.what flaw.position flaw.defect.reason

/-- What a walk over some flaws comes to: the error of the first one, or a result if there is none. -/
def settle {α : Type} : List Flaw → α → Except LoweringError α
  | [], a => .ok a
  | flaw :: _, _ => .error flaw.error

/-! ## Types and inputs -/

/-- The flaw of an empty name, or nothing. -/
def unnamed (defect : Defect) (position : Position) (name : String) : List Flaw :=
  if name = "" then [{ defect, position }] else []

mutual

/-- The names in a type, each before those of its generic parameters. -/
def TypeExpr.names : TypeExpr → List String
  | .mk name generics => name :: TypeExpr.namesOfAll generics

/-- The names in the types of a list. -/
def TypeExpr.namesOfAll : List TypeExpr → List String
  | [] => []
  | t :: ts => t.names ++ TypeExpr.namesOfAll ts

end

/-- The flaws of a type that stands in the node at a position. -/
def TypeExpr.flaws (position : Position) (t : TypeExpr) : List Flaw :=
  t.names.flatMap (unnamed .typeUnnamed position)

def Input.flaws (i : Input) : List Flaw :=
  unnamed .inputUnnamed i.position i.name ++ i.type.flaws i.position

/-! ## Expressions -/

namespace Expression

mutual

/-- An expression that stands at a place of a category, what is nested in it and what follows it, each with
the category of its place. An expression comes before what is nested in it, and that before what follows. -/
def places (category : Category) : Expression → List (Expression × Category)
  | .blockConditional position condition execution branches alternative =>
    (.blockConditional position condition execution branches alternative, category) ::
      (places .block condition ++ placesOfAll category.nested execution ++
        placesOfBranches category.nested branches ++ placesOfAll category.nested alternative)
  | .label position name resolution =>
    (.label position name resolution, category) :: places category.nested resolution
  | .inlineConditional position condition execution =>
    (.inlineConditional position condition execution, category) ::
      (places category.nested condition ++ places category.nested execution)
  | .parenthetical position execution next =>
    (.parenthetical position execution next, category) ::
      (places category.nested execution ++ placesOfNext category.nested next)
  | .capture position execution next =>
    (.capture position execution next, category) ::
      (places category.nested execution ++ placesOfNext category.nested next)
  | .reference position names next =>
    (.reference position names next, category) :: placesOfNext category.nested next
  | .operator position sign next =>
    (.operator position sign next, category) :: placesOfNext category.nested next
  | .literal position value => [(.literal position value, category)]

/-- The places of the expressions of a list. -/
def placesOfAll (category : Category) : List Expression → List (Expression × Category)
  | [] => []
  | e :: rest => places category e ++ placesOfAll category rest

def placesOfBranches (category : Category) : List SubConditional → List (Expression × Category)
  | [] => []
  | .mk _ condition execution :: rest =>
    places category condition ++ placesOfAll category execution ++ placesOfBranches category rest

def placesOfNext (category : Category) : Option Expression → List (Expression × Category)
  | none => []
  | some e => places category e

end

/-- The flaw of an expression by itself at a place of a category, or nothing. -/
def misplacement (place : Expression × Category) : List Flaw :=
  if place.1.belongsTo place.2 then []
  else [{ defect := .misplaced place.1.kind place.2, position := place.1.position }]

/-- The flaws of an expression that stands at a place of a category. -/
def flaws (category : Category) (e : Expression) : List Flaw :=
  (e.places category).flatMap misplacement

end Expression

/-! ## Declarations and modules -/

def Pattern.flaws (p : Pattern) : List Flaw :=
  unnamed .patternUnnamed p.position p.name ++ p.definition.flaws .inline

def Body.flaws : Body → List Flaw
  | .constexpr _ expressions => expressions.flatMap (Expression.flaws .constexpr)
  | .block _ instructions => instructions.flatMap (Expression.flaws .block)
  | .pattern _ patterns => patterns.flatMap Pattern.flaws

def Import.flaws (i : Import) : List Flaw :=
  match i.names with
  | [] => [{ defect := .noImportedNames, position := i.position }]
  | names => names.flatMap (unnamed .emptyImportedName i.position)

def StructDecl.flaws (s : StructDecl) : List Flaw :=
  unnamed .structUnnamed s.position s.name ++ s.fields.flatMap Input.flaws

/-- The flaws of the return type of a function at a position. -/
def returnTypeFlaws (position : Position) : Option TypeExpr → List Flaw
  | none => []
  | some type => type.flaws position

def FunctionDecl.flaws (f : FunctionDecl) : List Flaw :=
  unnamed .functionUnnamed f.position f.name.name ++ f.inputs.flatMap Input.flaws ++
    returnTypeFlaws f.position f.returnType ++ f.body.flaws

def Part.flaws : Part → List Flaw
  | .imports _ items => items.flatMap Import.flaws
  | .structs _ items => items.flatMap StructDecl.flaws
  | .functions _ items => items.flatMap FunctionDecl.flaws

def Module.flaws (m : Module) : List Flaw := m.parts.flatMap Part.flaws

/-! ## The first flaw -/

section Settle

variable {α β : Type}

theorem settle_eq_error_iff {flaws : List Flaw} {a : α} {e : LoweringError} :
    settle flaws a = .error e ↔ ∃ flaw, flaws.head? = some flaw ∧ e = flaw.error := by
  cases flaws with
  | nil => simp [settle]
  | cons flaw rest => simp [settle, eq_comm]

theorem settle_eq_ok_iff {flaws : List Flaw} {a b : α} :
    settle flaws a = .ok b ↔ flaws = [] ∧ a = b := by
  cases flaws with
  | nil => simp [settle]
  | cons flaw rest => simp [settle]

theorem map_settle (f : α → β) (flaws : List Flaw) (a : α) :
    (settle flaws a).map f = settle flaws (f a) := by
  cases flaws <;> rfl

/-- One walk after another meets the flaws of both. -/
theorem settle_bind {flaws more : List Flaw} {a : α} {b : β} {k : α → Except LoweringError β}
    (h : k a = settle more b) : (settle flaws a >>= k) = settle (flaws ++ more) b := by
  cases flaws with
  | nil => exact h
  | cons flaw rest => rfl

/-- A walk that first asks for a name. -/
theorem settle_unnamed (defect : Defect) (position : Position) (name : String) (flaws : List Flaw)
    (a : α) :
    (if name.isEmpty then .error (defect.errorAt position) else settle flaws a)
      = settle (unnamed defect position name ++ flaws) a := by
  unfold unnamed
  by_cases h : name = ""
  · subst h
    rfl
  · have hne : name.isEmpty = false := by simpa using h
    rw [hne, if_neg h]
    rfl

end Settle

end FrontEnd
