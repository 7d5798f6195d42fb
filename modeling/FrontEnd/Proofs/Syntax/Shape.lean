import FrontEnd.Proofs.Json.Shape
import FrontEnd.Syntax.SourceTree

/-! # Shapes of syntax trees

For each type of the grammar the shape of its values: which fields a node has, which of them may be left
out, and whether the value at hand would come back if they were. The JSON of a shape is what its value is
written as, by `toJson_shape` of each type; what a shape adds are the needs of the fields.
-/

namespace FrontEnd

/-! ## Positions, lists and options -/

namespace Position

def shape (p : Position) : Shape :=
  .record [
    .optional "filename" (p.filename == "") (.text p.filename),
    .optional "offset" (p.offset == 0) (.leaf (encode p.offset)),
    .optional "line" (p.line == 0) (.leaf (encode p.line)),
    .optional "column" (p.column == 0) (.leaf (encode p.column))]

theorem toJson_shape (p : Position) : p.shape.toJson = encode p := rfl

/-- The position among the fields of a node. -/
def field (p : Position) : Field := .optional "position" (decide (p = {})) p.shape

@[simp] theorem name_field (p : Position) : p.field.name = "position" := rfl

end Position

theorem itemsToJson_map {α : Type} (shape : α → Shape) (items : List α) :
    Shape.itemsToJson (items.map shape) = items.map fun a => (shape a).toJson := by
  induction items with
  | nil => rfl
  | cons a rest ih => rw [List.map_cons, Shape.itemsToJson, ih, List.map_cons]

/-- The shape of a list that may be left out where it is empty. -/
def listField {α : Type} (name : String) (shape : α → Shape) (items : List α) : Field :=
  .optional name items.isEmpty (.list (items.map shape))

@[simp] theorem name_listField {α : Type} (name : String) (shape : α → Shape) (items : List α) :
    (listField name shape items).name = name := rfl

theorem toJson_list {α : Type} [Interchange α] {shape : α → Shape} {items : List α}
    (h : ∀ a, (shape a).toJson = encode a) : (Shape.list (items.map shape)).toJson = encode items := by
  rw [Shape.toJson, itemsToJson_map]
  simp only [h]
  rfl

theorem toJson_optionShape {α : Type} [Interchange α] {shape : α → Shape} {value : Option α}
    (h : ∀ a, (shape a).toJson = encode a) : (optionShape shape value).toJson = encodeOption value := by
  cases value with
  | none => rfl
  | some a => exact h a

/-- The shape of a tagged node of a position and one value more. -/
def nodeShape (key name field : String) (position : Position) (shape : Shape) : Shape :=
  .tagged key name [position.field, .required field shape]

theorem toJson_nodeShape {α : Type} [Interchange α] {key name field : String} {position : Position}
    {shape : Shape} {value : α} (h : shape.toJson = encode value) :
    (nodeShape key name field position shape).toJson =
      Json.tagged key name [("position", encode position), (field, encode value)] := by
  rw [← h]
  rfl

/-! ## Types -/

namespace TypeExpr

mutual

def shape : TypeExpr → Shape
  | .mk name generics => .record [
      .required "name" (.text name),
      .optional "generics" generics.isEmpty (.list (shapeAll generics))]

def shapeAll : List TypeExpr → List Shape
  | [] => []
  | t :: rest => t.shape :: shapeAll rest

end

theorem shapeAll_eq_map (ts : List TypeExpr) : shapeAll ts = ts.map shape := by
  induction ts with
  | nil => rfl
  | cons t rest ih => rw [shapeAll, ih, List.map_cons]

mutual

theorem toJson_shape : ∀ t : TypeExpr, t.shape.toJson = t.toJson
  | .mk name generics => by
    rw [shape, toJson, ← itemsToJson_shapeAll generics]
    rfl

theorem itemsToJson_shapeAll : ∀ ts : List TypeExpr, Shape.itemsToJson (shapeAll ts) = allToJson ts
  | [] => rfl
  | t :: rest => by
    rw [shapeAll, Shape.itemsToJson, toJson_shape t, itemsToJson_shapeAll rest, allToJson]

end

end TypeExpr

/-! ## Values -/

namespace Value

mutual

def shape : Value → Shape
  | .scalar kind position text => nodeShape "kind" kind.name "value" position (.text text)
  | .group kind position members =>
    nodeShape "kind" kind.name kind.memberField position (.list (shapeAll members))

def shapeAll : List Value → List Shape
  | [] => []
  | v :: rest => v.shape :: shapeAll rest

end

theorem shapeAll_eq_map (vs : List Value) : shapeAll vs = vs.map shape := by
  induction vs with
  | nil => rfl
  | cons v rest ih => rw [shapeAll, ih, List.map_cons]

mutual

theorem toJson_shape : ∀ v : Value, v.shape.toJson = v.toJson
  | .scalar kind position text => rfl
  | .group kind position members => by
    rw [shape, toJson, ← itemsToJson_shapeAll members]
    rfl

theorem itemsToJson_shapeAll : ∀ vs : List Value, Shape.itemsToJson (shapeAll vs) = allToJson vs
  | [] => rfl
  | v :: rest => by
    rw [shapeAll, Shape.itemsToJson, toJson_shape v, itemsToJson_shapeAll rest, allToJson]

end

end Value

/-! ## Expressions -/

namespace Expression

mutual

def shape : Expression → Shape
  | .blockConditional position condition execution subConditionals alternative =>
    .tagged "kind" "BlockConditional" [
      position.field,
      .required "condition" condition.shape,
      .required "execution" (.list (shapeAll execution)),
      .optional "sub_conditionals" subConditionals.isEmpty (.list (branchShapes subConditionals)),
      .optional "alternative" alternative.isEmpty (.list (shapeAll alternative))]
  | .label position name resolution =>
    .tagged "kind" "Label"
      [position.field, .required "label" (.text name), .required "resolution" resolution.shape]
  | .inlineConditional position condition execution =>
    .tagged "kind" "InlineConditional"
      [position.field, .required "condition" condition.shape, .required "execution" execution.shape]
  | .parenthetical position execution next =>
    .tagged "kind" "Parenthetical" [
      position.field,
      .required "execution" execution.shape,
      .optional "next" next.isNone (nextShape next)]
  | .capture position execution next =>
    .tagged "kind" "Capture" [
      position.field,
      .required "execution" execution.shape,
      .optional "next" next.isNone (nextShape next)]
  | .reference position names next =>
    .tagged "kind" "Reference" [
      position.field,
      .required "names" (.list (names.map .text)),
      .optional "next" next.isNone (nextShape next)]
  | .operator position sign next =>
    .tagged "kind" "Operator" [
      position.field,
      .required "operator" (.text sign),
      .optional "next" next.isNone (nextShape next)]
  | .literal position value => nodeShape "kind" "Literal" "value" position value.shape

def shapeAll : List Expression → List Shape
  | [] => []
  | e :: rest => e.shape :: shapeAll rest

/-- The shape of a further branch of a conditional block. -/
def branchShape : SubConditional → Shape
  | .mk position condition execution => .record [
      position.field,
      .required "condition" condition.shape,
      .required "execution" (.list (shapeAll execution))]

def branchShapes : List SubConditional → List Shape
  | [] => []
  | branch :: rest => branchShape branch :: branchShapes rest

def nextShape : Option Expression → Shape
  | none => .leaf .null
  | some e => e.shape

end

theorem shapeAll_eq_map (es : List Expression) : shapeAll es = es.map shape := by
  induction es with
  | nil => rfl
  | cons e rest ih => rw [shapeAll, ih, List.map_cons]

theorem branchShapes_eq_map (branches : List SubConditional) :
    branchShapes branches = branches.map branchShape := by
  induction branches with
  | nil => rfl
  | cons branch rest ih => rw [branchShapes, ih, List.map_cons]

theorem nextShape_eq_optionShape (next : Option Expression) : nextShape next = optionShape shape next := by
  cases next <;> rfl

mutual

theorem toJson_shape : ∀ e : Expression, e.shape.toJson = e.toJson
  | .blockConditional position condition execution subConditionals alternative => by
    rw [shape, toJson, ← toJson_shape condition, ← itemsToJson_shapeAll execution,
      ← itemsToJson_branchShapes subConditionals, ← itemsToJson_shapeAll alternative]
    rfl
  | .label position name resolution => by
    rw [shape, toJson, ← toJson_shape resolution]
    rfl
  | .inlineConditional position condition execution => by
    rw [shape, toJson, ← toJson_shape condition, ← toJson_shape execution]
    rfl
  | .parenthetical position execution next => by
    rw [shape, toJson, ← toJson_shape execution, ← toJson_nextShape next]
    rfl
  | .capture position execution next => by
    rw [shape, toJson, ← toJson_shape execution, ← toJson_nextShape next]
    rfl
  | .reference position names next => by
    have hnames : (Shape.list (names.map .text)).toJson = encode names := toJson_list fun _ => rfl
    rw [shape, toJson, ← hnames, ← toJson_nextShape next]
    rfl
  | .operator position sign next => by
    rw [shape, toJson, ← toJson_nextShape next]
    rfl
  | .literal position value => by
    have hvalue : value.shape.toJson = encode value := Value.toJson_shape value
    rw [shape, toJson, ← hvalue]
    rfl

theorem itemsToJson_shapeAll : ∀ es : List Expression, Shape.itemsToJson (shapeAll es) = allToJson es
  | [] => rfl
  | e :: rest => by
    rw [shapeAll, Shape.itemsToJson, toJson_shape e, itemsToJson_shapeAll rest, allToJson]

theorem itemsToJson_branchShapes : ∀ branches : List SubConditional,
    Shape.itemsToJson (branchShapes branches) = branchesToJson branches
  | [] => rfl
  | .mk position condition execution :: rest => by
    rw [branchShapes, Shape.itemsToJson, itemsToJson_branchShapes rest, branchesToJson, branchShape,
      ← toJson_shape condition, ← itemsToJson_shapeAll execution]
    rfl

theorem toJson_nextShape : ∀ next : Option Expression, (nextShape next).toJson = nextToJson next
  | none => rfl
  | some e => by rw [nextShape, nextToJson, toJson_shape e]

end

end Expression

/-! ## Declarations -/

namespace Input

def shape (input : Input) : Shape :=
  .record [
    input.position.field, .required "type" input.type.shape, .required "name" (.text input.name)]

theorem toJson_shape (input : Input) : input.shape.toJson = encode input := by
  have htype : input.type.shape.toJson = encode input.type := input.type.toJson_shape
  show _ = Json.object [_, ("type", encode input.type), _]
  rw [← htype]
  rfl

end Input

namespace StructDecl

def shape (s : StructDecl) : Shape :=
  .record [s.position.field, .required "name" (.text s.name), listField "fields" Input.shape s.fields]

theorem toJson_shape (s : StructDecl) : s.shape.toJson = encode s := by
  have hfields : (Shape.list (s.fields.map Input.shape)).toJson = encode s.fields :=
    toJson_list Input.toJson_shape
  show _ = Json.object [_, _, ("fields", encode s.fields)]
  rw [← hfields]
  rfl

end StructDecl

namespace Pattern

def shape (p : Pattern) : Shape :=
  .record [
    p.position.field, .required "name" (.text p.name), listField "params" .text p.params,
    .required "definition" p.definition.shape]

theorem toJson_shape (p : Pattern) : p.shape.toJson = encode p := by
  have hparams : (Shape.list (p.params.map .text)).toJson = encode p.params := toJson_list fun _ => rfl
  have hdefinition : p.definition.shape.toJson = encode p.definition := p.definition.toJson_shape
  show _ = Json.object [_, _, ("params", encode p.params), ("definition", encode p.definition)]
  rw [← hparams, ← hdefinition]
  rfl

end Pattern

namespace Import

def shape : Import → Shape
  | .single position name => nodeShape "kind" "Single" "name" position (.text name)
  | .list position names => nodeShape "kind" "List" "names" position (.list (names.map .text))

theorem toJson_shape (i : Import) : i.shape.toJson = encode i := by
  cases i with
  | single position name => rfl
  | list position names => exact toJson_nodeShape (toJson_list fun _ => rfl)

end Import

namespace Body

def shape : Body → Shape
  | .constexpr position expressions =>
    nodeShape "kind" "Constexpr" "expressions" position (.list (expressions.map Expression.shape))
  | .block position instructions =>
    nodeShape "kind" "Block" "instructions" position (.list (instructions.map Expression.shape))
  | .pattern position patterns =>
    nodeShape "kind" "Pattern" "patterns" position (.list (patterns.map Pattern.shape))

theorem toJson_shape (b : Body) : b.shape.toJson = encode b := by
  cases b with
  | constexpr position expressions => exact toJson_nodeShape (toJson_list Expression.toJson_shape)
  | block position instructions => exact toJson_nodeShape (toJson_list Expression.toJson_shape)
  | pattern position patterns => exact toJson_nodeShape (toJson_list Pattern.toJson_shape)

end Body

def FunctionName.shape (f : FunctionName) : Shape := .text f.name

namespace FunctionDecl

def shape (f : FunctionDecl) : Shape :=
  .record [
    f.position.field,
    .optional "annotation" f.annotation.isNone (optionShape .text f.annotation),
    .optional "return_type" f.returnType.isNone (optionShape TypeExpr.shape f.returnType),
    .required "name" f.name.shape,
    listField "inputs" Input.shape f.inputs,
    .required "definition" f.body.shape]

theorem toJson_shape (f : FunctionDecl) : f.shape.toJson = encode f := by
  have hannotation : (optionShape .text f.annotation).toJson = encodeOption f.annotation :=
    toJson_optionShape fun _ => rfl
  have hreturn : (optionShape TypeExpr.shape f.returnType).toJson = encodeOption f.returnType :=
    toJson_optionShape TypeExpr.toJson_shape
  have hinputs : (Shape.list (f.inputs.map Input.shape)).toJson = encode f.inputs :=
    toJson_list Input.toJson_shape
  show _ = Json.object [
    _, ("annotation", encodeOption f.annotation), ("return_type", encodeOption f.returnType), _,
    ("inputs", encode f.inputs), ("definition", encode f.body)]
  rw [← hannotation, ← hreturn, ← hinputs, ← f.body.toJson_shape]
  rfl

end FunctionDecl

/-! ## Modules and data files -/

namespace Part

def shape : Part → Shape
  | .imports position items =>
    nodeShape "part" "Import" "imports" position (.list (items.map Import.shape))
  | .structs position items =>
    nodeShape "part" "Struct" "structs" position (.list (items.map StructDecl.shape))
  | .functions position items =>
    nodeShape "part" "Function" "functions" position (.list (items.map FunctionDecl.shape))

theorem toJson_shape (part : Part) : part.shape.toJson = encode part := by
  cases part with
  | imports position items => exact toJson_nodeShape (toJson_list Import.toJson_shape)
  | structs position items => exact toJson_nodeShape (toJson_list StructDecl.toJson_shape)
  | functions position items => exact toJson_nodeShape (toJson_list FunctionDecl.toJson_shape)

end Part

namespace Module

def fields (m : Module) : List Field := [m.position.field, listField "parts" Part.shape m.parts]

def shape (m : Module) : Shape := .record m.fields

theorem fieldsToJson_fields (m : Module) : Shape.fieldsToJson m.fields = m.toFields := by
  have hparts : (Shape.list (m.parts.map Part.shape)).toJson = encode m.parts :=
    toJson_list Part.toJson_shape
  rw [toFields, ← hparts]
  rfl

theorem toJson_shape (m : Module) : m.shape.toJson = encode m :=
  congrArg Json.object m.fieldsToJson_fields

end Module

namespace Assignment

def shape (a : Assignment) : Shape :=
  .record [
    a.position.field, .required "first_name" (.text a.firstName),
    .optional "second_name" a.secondName.isNone (optionShape .text a.secondName),
    .required "value" a.value.shape]

theorem toJson_shape (a : Assignment) : a.shape.toJson = encode a := by
  have hsecond : (optionShape .text a.secondName).toJson = encodeOption a.secondName :=
    toJson_optionShape fun _ => rfl
  have hvalue : a.value.shape.toJson = encode a.value := a.value.toJson_shape
  show _ = Json.object [_, _, ("second_name", encodeOption a.secondName), ("value", encode a.value)]
  rw [← hsecond, ← hvalue]
  rfl

end Assignment

namespace Configuration

def fields (c : Configuration) : List Field :=
  [c.position.field, listField "assignments" Assignment.shape c.assignments]

def shape (c : Configuration) : Shape := .record c.fields

theorem fieldsToJson_fields (c : Configuration) : Shape.fieldsToJson c.fields = c.toFields := by
  have hassignments : (Shape.list (c.assignments.map Assignment.shape)).toJson = encode c.assignments :=
    toJson_list Assignment.toJson_shape
  rw [toFields, ← hassignments]
  rfl

theorem toJson_shape (c : Configuration) : c.shape.toJson = encode c :=
  congrArg Json.object c.fieldsToJson_fields

end Configuration

namespace SourceTree

def shape : SourceTree → Shape
  | .module m => .tagged "kind" "Module" m.fields
  | .configuration c => .tagged "kind" "Configuration" c.fields

theorem toJson_shape (t : SourceTree) : t.shape.toJson = encode t := by
  cases t with
  | module m =>
    show _ = Json.tagged "kind" "Module" m.toFields
    rw [← m.fieldsToJson_fields]
    rfl
  | configuration c =>
    show _ = Json.tagged "kind" "Configuration" c.toFields
    rw [← c.fieldsToJson_fields]
    rfl

end SourceTree

end FrontEnd
