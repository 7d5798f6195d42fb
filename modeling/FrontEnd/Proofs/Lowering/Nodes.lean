import FrontEnd.Data.Constant
import FrontEnd.Proofs.Data.ValueTree
import FrontEnd.Proofs.Lowering.Module

/-!
# Nodes at fault

A module and an assignment are looked at node by node. `SyntaxNode.AtFault` says for each kind of node when
it is at fault, and `Module.nodes` and `Assignment.nodes` list the nodes in the order of the walk.

1. What can be told of a node by itself, `SyntaxNode.errors`, is nothing unless the node is at fault
   (`errors_eq_nil_iff`), and is told under the position of the node (`position?_of_mem_errors`).
2. The nodes of a module have its flaws (`Module.haveFlaws`), so a module without a result has the first error
   of its nodes (`Module.lowerInto_eq_error_iff_head?`).
3. So has an assignment: its own name comes first, and then the scalars in its value
   (`Assignment.constant_eq_error_iff_head?`).
-/

namespace FrontEnd

/-- A node of a syntax tree with which something may be wrong. -/
inductive SyntaxNode where
  | ofImport (i : Import)
  | ofStruct (s : StructDecl)
  /-- An input together with its type. -/
  | ofInput (i : Input)
  | ofFunction (f : FunctionDecl)
  /-- A function again, for the type that it returns. -/
  | ofReturn (f : FunctionDecl)
  | ofPattern (p : Pattern)
  | ofExpression (place : Expression × Category)
  | ofAssignment (a : Assignment)
  | ofValue (v : Value)

/-- A character literal that stands for no character. -/
def Value.Malformed (v : Value) : Prop :=
  ∃ position text, v = .scalar .char position text ∧
    ∀ c, ¬ CharLiteral.StandsFor (CharLiteral.unquoted text.toList) c

namespace SyntaxNode

/-- Where a node starts. -/
def position : SyntaxNode → Position
  | .ofImport i => i.position
  | .ofStruct s => s.position
  | .ofInput i => i.position
  | .ofFunction f => f.position
  | .ofReturn f => f.position
  | .ofPattern p => p.position
  | .ofExpression place => place.1.position
  | .ofAssignment a => a.position
  | .ofValue v => v.position

/-- Whether something is wrong with a node by itself. An assignment of one name is named by it, and one of two
names by the second. -/
def AtFault : SyntaxNode → Prop
  | .ofImport i => i.names = [] ∨ "" ∈ i.names
  | .ofStruct s => s.name = ""
  | .ofInput i => i.name = "" ∨ "" ∈ i.type.names
  | .ofFunction f => f.name.name = ""
  | .ofReturn f => ∃ type ∈ f.returnType, "" ∈ type.names
  | .ofPattern p => p.name = ""
  | .ofExpression place => place.1.belongsTo place.2 = false
  | .ofAssignment a => a.secondName.getD a.firstName = ""
  | .ofValue v => v.Malformed

end SyntaxNode

/-! ## The order of the walk -/

def StructDecl.nodes (s : StructDecl) : List SyntaxNode := .ofStruct s :: s.fields.map .ofInput

def Pattern.nodes (p : Pattern) : List SyntaxNode :=
  .ofPattern p :: (p.definition.places .inline).map .ofExpression

def Body.nodes : Body → List SyntaxNode
  | .constexpr _ expressions => (Expression.placesOfAll .constexpr expressions).map .ofExpression
  | .block _ instructions => (Expression.placesOfAll .block instructions).map .ofExpression
  | .pattern _ patterns => patterns.flatMap Pattern.nodes

def FunctionDecl.nodes (f : FunctionDecl) : List SyntaxNode :=
  .ofFunction f :: (f.inputs.map .ofInput ++ .ofReturn f :: f.body.nodes)

def Part.nodes : Part → List SyntaxNode
  | .imports _ items => items.map .ofImport
  | .structs _ items => items.flatMap StructDecl.nodes
  | .functions _ items => items.flatMap FunctionDecl.nodes

/-- The nodes of a module, an expression before what is nested in it and that before what follows. -/
def Module.nodes (m : Module) : List SyntaxNode := m.parts.flatMap Part.nodes

/-- An assignment and the scalars in its value, in the order of the source. -/
def Assignment.nodes (a : Assignment) : List SyntaxNode := .ofAssignment a :: a.value.leaves.map .ofValue

/-! ## What is told of a node -/

theorem unnamed_eq_nil_iff {defect : Defect} {position : Position} {name : String} :
    unnamed defect position name = [] ↔ name ≠ "" := by
  simp [unnamed]

theorem flatMap_unnamed_eq_nil_iff {defect : Defect} {position : Position} {names : List String} :
    names.flatMap (unnamed defect position) = [] ↔ "" ∉ names := by
  simp only [List.flatMap_eq_nil_iff, unnamed_eq_nil_iff]
  exact ⟨fun h hmem => h "" hmem rfl, fun h name hname heq => h (heq ▸ hname)⟩

theorem position_of_mem_unnamed {defect : Defect} {position : Position} {name : String} {flaw : Flaw}
    (h : flaw ∈ unnamed defect position name) : flaw.position = position := by
  unfold unnamed at h
  split at h
  · rw [List.mem_singleton.mp h]
  · cases h

theorem position_of_mem_flatMap_unnamed {defect : Defect} {position : Position} {names : List String}
    {flaw : Flaw} (h : flaw ∈ names.flatMap (unnamed defect position)) : flaw.position = position := by
  obtain ⟨name, -, hflaw⟩ := List.mem_flatMap.mp h
  exact position_of_mem_unnamed hflaw

namespace Value

/-- The error of a value by itself, or nothing. -/
def errors (v : Value) : List LoweringError :=
  match v.dataValue with
  | .ok _ => []
  | .error e => [e]

theorem mem_errors_iff {v : Value} {e : LoweringError} : e ∈ v.errors ↔ v.dataValue = .error e := by
  unfold errors
  cases v.dataValue <;> simp [eq_comm]

/-- A group has a data value whatever is in it. -/
theorem dataValue_ne_error_of_group (kind : GroupKind) (position : Position) (members : List Value)
    (e : LoweringError) : (group kind position members).dataValue ≠ .error e := nofun

theorem malformed_iff {v : Value} : v.Malformed ↔ ∃ e, v.dataValue = .error e := by
  constructor
  · rintro ⟨position, text, rfl, hnone⟩
    cases hread : CharLiteral.read text position with
    | ok c => exact absurd (CharLiteral.read_eq_ok_iff.mp hread) (hnone c)
    | error e => exact ⟨.literal e, by rw [dataValue, scalarText, hread]; rfl⟩
  · rintro ⟨e, he⟩
    cases v with
    | group kind position members => exact absurd he (dataValue_ne_error_of_group kind position members e)
    | scalar kind position text =>
      obtain ⟨rfl, fault, hread, -⟩ := (dataValue_eq_error_iff kind position text e).mp he
      refine ⟨position, text, rfl, fun c hc => ?_⟩
      have hok : CharLiteral.read text position = .ok c := CharLiteral.read_eq_ok_iff.mpr hc
      rw [hread] at hok
      cases hok

theorem errors_eq_nil_iff {v : Value} : v.errors = [] ↔ ¬ v.Malformed := by
  simp only [List.eq_nil_iff_forall_not_mem, mem_errors_iff, malformed_iff, not_exists]

theorem position?_of_mem_errors {v : Value} {e : LoweringError} (h : e ∈ v.errors) :
    e.position? = some v.position := by
  rw [mem_errors_iff] at h
  cases v with
  | group kind position members => exact absurd h (dataValue_ne_error_of_group kind position members e)
  | scalar kind position text =>
    obtain ⟨-, fault, -, rfl⟩ := (dataValue_eq_error_iff kind position text e).mp h
    rfl

end Value

theorem Import.flaws_eq_nil_iff {i : Import} : i.flaws = [] ↔ ¬ (i.names = [] ∨ "" ∈ i.names) := by
  unfold flaws
  cases i.names with
  | nil => simp
  | cons name rest => rw [flatMap_unnamed_eq_nil_iff, or_iff_right (List.cons_ne_nil name rest)]

theorem Import.position_of_mem_flaws {i : Import} {flaw : Flaw} (h : flaw ∈ i.flaws) :
    flaw.position = i.position := by
  unfold flaws at h
  split at h
  · rw [List.mem_singleton.mp h]
  · exact position_of_mem_flatMap_unnamed h

theorem Input.flaws_eq_nil_iff {i : Input} : i.flaws = [] ↔ ¬ (i.name = "" ∨ "" ∈ i.type.names) := by
  rw [flaws, TypeExpr.flaws, List.append_eq_nil_iff, unnamed_eq_nil_iff, flatMap_unnamed_eq_nil_iff, not_or]

theorem Input.position_of_mem_flaws {i : Input} {flaw : Flaw} (h : flaw ∈ i.flaws) :
    flaw.position = i.position := by
  rcases List.mem_append.mp h with h | h
  · exact position_of_mem_unnamed h
  · exact position_of_mem_flatMap_unnamed h

theorem returnTypeFlaws_eq_nil_iff {position : Position} {returnType : Option TypeExpr} :
    returnTypeFlaws position returnType = [] ↔ ¬ ∃ type ∈ returnType, "" ∈ type.names := by
  cases returnType with
  | none => simp [returnTypeFlaws]
  | some type =>
    rw [returnTypeFlaws, TypeExpr.flaws, flatMap_unnamed_eq_nil_iff]
    simp

theorem position_of_mem_returnTypeFlaws {position : Position} {returnType : Option TypeExpr} {flaw : Flaw}
    (h : flaw ∈ returnTypeFlaws position returnType) : flaw.position = position := by
  cases returnType with
  | none => cases h
  | some type => exact position_of_mem_flatMap_unnamed h

theorem Expression.misplacement_eq_nil_iff {place : Expression × Category} :
    misplacement place = [] ↔ ¬ place.1.belongsTo place.2 = false := by
  simp [misplacement]

theorem Expression.position_of_mem_misplacement {place : Expression × Category} {flaw : Flaw}
    (h : flaw ∈ misplacement place) : flaw.position = place.1.position := by
  unfold misplacement at h
  split at h
  · cases h
  · rw [List.mem_singleton.mp h]

namespace SyntaxNode

/-- The flaws of a node by itself. What may be wrong with a value is no flaw of it but of its literal. -/
def flaws : SyntaxNode → List Flaw
  | .ofImport i => i.flaws
  | .ofStruct s => unnamed .structUnnamed s.position s.name
  | .ofInput i => i.flaws
  | .ofFunction f => unnamed .functionUnnamed f.position f.name.name
  | .ofReturn f => returnTypeFlaws f.position f.returnType
  | .ofPattern p => unnamed .patternUnnamed p.position p.name
  | .ofExpression place => Expression.misplacement place
  | .ofAssignment a => unnamed .assignmentUnnamed a.position (a.secondName.getD a.firstName)
  | .ofValue _ => []

/-- What is told of a node by itself. -/
def errors : SyntaxNode → List LoweringError
  | .ofValue v => v.errors
  | node => node.flaws.map Flaw.error

theorem errors_eq_nil_iff (node : SyntaxNode) : node.errors = [] ↔ ¬ node.AtFault := by
  cases node with
  | ofImport i => exact List.map_eq_nil_iff.trans Import.flaws_eq_nil_iff
  | ofStruct s => exact List.map_eq_nil_iff.trans unnamed_eq_nil_iff
  | ofInput i => exact List.map_eq_nil_iff.trans Input.flaws_eq_nil_iff
  | ofFunction f => exact List.map_eq_nil_iff.trans unnamed_eq_nil_iff
  | ofReturn f => exact List.map_eq_nil_iff.trans returnTypeFlaws_eq_nil_iff
  | ofPattern p => exact List.map_eq_nil_iff.trans unnamed_eq_nil_iff
  | ofExpression place => exact List.map_eq_nil_iff.trans Expression.misplacement_eq_nil_iff
  | ofAssignment a => exact List.map_eq_nil_iff.trans unnamed_eq_nil_iff
  | ofValue v => exact Value.errors_eq_nil_iff

theorem position_of_mem_flaws {node : SyntaxNode} {flaw : Flaw} (h : flaw ∈ node.flaws) :
    flaw.position = node.position := by
  cases node with
  | ofImport i => exact Import.position_of_mem_flaws h
  | ofStruct s => exact position_of_mem_unnamed h
  | ofInput i => exact Input.position_of_mem_flaws h
  | ofFunction f => exact position_of_mem_unnamed h
  | ofReturn f => exact position_of_mem_returnTypeFlaws h
  | ofPattern p => exact position_of_mem_unnamed h
  | ofExpression place => exact Expression.position_of_mem_misplacement h
  | ofAssignment a => exact position_of_mem_unnamed h
  | ofValue v => cases h

theorem position?_of_mem_errors {node : SyntaxNode} {e : LoweringError} (h : e ∈ node.errors) :
    e.position? = some node.position := by
  unfold errors at h
  split at h
  · exact Value.position?_of_mem_errors h
  · obtain ⟨flaw, hflaw, rfl⟩ := List.mem_map.mp h
    exact congrArg some (position_of_mem_flaws hflaw)

end SyntaxNode

/-! ## Modules -/

/-- What is told of some nodes is told of some flaws, in the same order. -/
def HaveFlaws (nodes : List SyntaxNode) (flaws : List Flaw) : Prop :=
  nodes.flatMap SyntaxNode.errors = flaws.map Flaw.error

namespace HaveFlaws

variable {α : Type} {nodes more : List SyntaxNode} {flaws others : List Flaw} {node : SyntaxNode}

theorem append (h : HaveFlaws nodes flaws) (hmore : HaveFlaws more others) :
    HaveFlaws (nodes ++ more) (flaws ++ others) := by
  rw [HaveFlaws, List.flatMap_append, h, hmore, List.map_append]

theorem cons (hnode : node.errors = flaws.map Flaw.error) (h : HaveFlaws nodes others) :
    HaveFlaws (node :: nodes) (flaws ++ others) := by
  rw [HaveFlaws, List.flatMap_cons, hnode, h, List.map_append]

theorem flatMap {nodes : α → List SyntaxNode} {flaws : α → List Flaw}
    (h : ∀ a, HaveFlaws (nodes a) (flaws a)) (as : List α) :
    HaveFlaws (as.flatMap nodes) (as.flatMap flaws) := by
  rw [HaveFlaws, List.flatMap_assoc, List.map_flatMap]
  exact List.flatMap_congr fun a _ => h a

theorem map {node : α → SyntaxNode} {flaws : α → List Flaw}
    (h : ∀ a, (node a).errors = (flaws a).map Flaw.error) (as : List α) :
    HaveFlaws (as.map node) (as.flatMap flaws) := by
  rw [HaveFlaws, List.flatMap_map, List.map_flatMap]
  exact List.flatMap_congr fun a _ => h a

end HaveFlaws

theorem StructDecl.haveFlaws (s : StructDecl) : HaveFlaws s.nodes s.flaws :=
  .cons rfl (.map (fun _ => rfl) s.fields)

theorem Pattern.haveFlaws (p : Pattern) : HaveFlaws p.nodes p.flaws :=
  .cons rfl (.map (fun _ => rfl) (p.definition.places .inline))

theorem Body.haveFlaws (b : Body) : HaveFlaws b.nodes b.flaws := by
  cases b with
  | constexpr _ expressions =>
    rw [flaws, Expression.flatMap_flaws]
    exact .map (fun _ => rfl) _
  | block _ instructions =>
    rw [flaws, Expression.flatMap_flaws]
    exact .map (fun _ => rfl) _
  | pattern _ patterns => exact .flatMap Pattern.haveFlaws patterns

theorem FunctionDecl.haveFlaws (f : FunctionDecl) : HaveFlaws f.nodes f.flaws := by
  -- The function is met twice, in front of its inputs and behind them.
  rw [flaws, List.append_assoc, List.append_assoc]
  exact .cons rfl (.append (.map (fun _ => rfl) f.inputs) (.cons rfl f.body.haveFlaws))

theorem Part.haveFlaws (p : Part) : HaveFlaws p.nodes p.flaws := by
  cases p with
  | imports _ items => exact .map (fun _ => rfl) items
  | structs _ items => exact .flatMap StructDecl.haveFlaws items
  | functions _ items => exact .flatMap FunctionDecl.haveFlaws items

/-- The nodes of a module have its flaws, each of them under its own position. -/
theorem Module.haveFlaws (m : Module) : HaveFlaws m.nodes m.flaws := .flatMap Part.haveFlaws m.parts

theorem Module.lowerInto_eq_error_iff_head? (m : Module) (file : String) (ids : IdSource)
    (symbols : SymbolTable) (e : LoweringError) :
    (m.lowerInto file ids symbols).result = .error e ↔
      (m.nodes.flatMap SyntaxNode.errors).head? = some e := by
  rw [lowerInto_result, settle_eq_error_iff, m.haveFlaws, List.head?_map, Option.map_eq_some_iff]
  simp only [eq_comm]

/-! ## Assignments -/

namespace Value

theorem mapM_eq_error_iff_head? (vs : List Value) (e : LoweringError) :
    vs.mapM dataValue = .error e ↔ (vs.flatMap errors).head? = some e := by
  induction vs with
  | nil => simp [pure, Except.pure]
  | cons v rest ih =>
    rw [List.mapM_cons, List.flatMap_cons, errors]
    cases v.dataValue with
    | error first => simp [bind, Except.bind]
    | ok data =>
      rw [List.nil_append, ← ih]
      cases rest.mapM dataValue <;> simp [bind, Except.bind, pure, Except.pure]

/-- A value without a tree has the first error of its scalars. -/
theorem tree_eq_error_iff_head? (v : Value) (e : LoweringError) :
    v.tree.result = .error e ↔ (v.leaves.flatMap errors).head? = some e := by
  cases v with
  | scalar kind position text =>
    rw [result_tree_scalar, leaves, List.flatMap_singleton, errors]
    cases (scalar kind position text).dataValue <;> simp [Except.map]
  | group kind position members =>
    rw [result_tree_group, ← mapM_eq_error_iff_head?]
    cases (group kind position members).leaves.mapM dataValue <;> simp [Except.map]

end Value

namespace Assignment

theorem snd_names (a : Assignment) : a.names.2 = a.secondName.getD a.firstName := by
  unfold names
  cases a.secondName <;> rfl

theorem constant_eq_error_iff_head? (a : Assignment) (e : LoweringError) :
    a.constant.result = .error e ↔ (a.nodes.flatMap SyntaxNode.errors).head? = some e := by
  have hnodes : a.nodes.flatMap SyntaxNode.errors
      = (unnamed .assignmentUnnamed a.position a.names.2).map Flaw.error
        ++ a.value.leaves.flatMap Value.errors := by
    rw [nodes, List.flatMap_cons, List.flatMap_map, a.snd_names]
    rfl
  rw [hnodes, constant]
  rcases a.names with ⟨firstName, secondName⟩
  -- An assignment without a name fails whatever its value is.
  by_cases hname : secondName = ""
  · subst hname
    simp [unnamed, Defect.errorAt, Flaw.error]
  · have hne : secondName.isEmpty = false := by simpa using hname
    have hhead := a.value.tree_eq_error_iff_head? e
    rcases htree : a.value.tree with ⟨log, result⟩
    rw [htree] at hhead
    simp only [hne, unnamed, if_neg hname, Bool.false_eq_true, if_false, List.map_nil, List.nil_append,
      ← hhead]
    cases result <;> simp

end Assignment

end FrontEnd
