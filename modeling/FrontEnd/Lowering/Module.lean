import FrontEnd.Lowering.Declaration
import FrontEnd.Lowering.SymbolTable
import FrontEnd.Lowering.Validity
import FrontEnd.Syntax.SourceTree

/-! # Lowering modules

A module is lowered item by item, in the order of the source. An import gives its names; a declaration, if it
is valid, takes the next identifier and gives a lowered declaration and an entry of the symbol table. The
first defect stops the walk: the identifiers that were taken stay taken, and nothing else is kept.
-/

namespace FrontEnd

/-! ## Types and inputs -/

mutual

/-- The lowered form of a type that stands in the node at a position. -/
def TypeExpr.lower (position : Position) : TypeExpr → Except LoweringError TypeRef
  | .mk name generics =>
    if name.isEmpty then .error (Defect.typeUnnamed.errorAt position)
    else (TypeExpr.lowerAll position generics).map (TypeRef.mk name)

/-- The lowered forms of the types of a list. -/
def TypeExpr.lowerAll (position : Position) : List TypeExpr → Except LoweringError (List TypeRef)
  | [] => .ok []
  | t :: rest => do
    let lowered ← t.lower position
    let others ← TypeExpr.lowerAll position rest
    return lowered :: others

end

def Input.lower (i : Input) : Except LoweringError Parameter :=
  if i.name.isEmpty then .error (Defect.inputUnnamed.errorAt i.position)
  else (i.type.lower i.position).map fun type => { name := i.name, type }

/-- The lowered forms of the inputs of a list. -/
def lowerInputs : List Input → Except LoweringError (List Parameter)
  | [] => .ok []
  | i :: rest => do
    let lowered ← i.lower
    let others ← lowerInputs rest
    return lowered :: others

/-! ## Declarations -/

/-- The lowered form of a struct under an identifier. A struct returns its own type. -/
def StructDecl.lower (s : StructDecl) (id : UInt64) : Except LoweringError Declaration :=
  if s.name.isEmpty then .error (Defect.structUnnamed.errorAt s.position)
  else do
    let inputs ← lowerInputs s.fields
    return {
      id, inputs
      name := s.name
      returnType := some (.mk s.name [])
      definition := { isStruct := true } }

/-- The instructions of a body. No instruction set is settled yet, so there are none. -/
def Body.instructions (_ : Body) : List Instruction := []

/-- The lowered form of the return type of a function that stands at a position. -/
def lowerReturnType (position : Position) :
    Option TypeExpr → Except LoweringError (Option TypeRef)
  | none => .ok none
  | some type => (type.lower position).map some

/-- The lowered form of a function under an identifier. -/
def FunctionDecl.lower (f : FunctionDecl) (id : UInt64) : Except LoweringError Declaration :=
  if f.name.name.isEmpty then .error (Defect.functionUnnamed.errorAt f.position)
  else do
    let inputs ← lowerInputs f.inputs
    let returnType ← lowerReturnType f.position f.returnType
    f.body.check
    return {
      id, inputs, returnType
      name := f.name.name
      definition := {
        isFunction := true
        isOperator := f.name.isOperator
        annotation := f.annotation.getD ""
        expressions := f.body.instructions } }

/-! ## Imports -/

/-- The names of an import that starts at a position, up to the first empty one. -/
def importNames (position : Position) : List String → Logged (List ImportName)
  | [] => ⟨[], .ok []⟩
  | name :: rest =>
    if name.isEmpty then ⟨[], .error (Defect.emptyImportedName.errorAt position)⟩
    else
      let more := importNames position rest
      ⟨.imported name :: more.log, more.result.map fun others => ⟨name⟩ :: others⟩

def Import.lower (i : Import) : Logged (List ImportName) :=
  if i.names.isEmpty then ⟨[], .error (Defect.noImportedNames.errorAt i.position)⟩
  else importNames i.position i.names

/-! ## Items -/

/-- What a module is lowered by. -/
inductive Item where
  | ofImport (i : Import)
  | ofStruct (s : StructDecl)
  | ofFunction (f : FunctionDecl)

def Part.items : Part → List Item
  | .imports _ items => items.map .ofImport
  | .structs _ items => items.map .ofStruct
  | .functions _ items => items.map .ofFunction

/-- The items of a module in the order of the source. -/
def Module.items (m : Module) : List Item := m.parts.flatMap Part.items

/-- How far the lowering of a module has come. -/
structure Progress where
  ids : IdSource
  imports : List ImportName := []
  declarations : List Declaration := []
  symbols : SymbolTable := .empty
  log : List Event := []

namespace Progress

/-- One more declaration, which takes the next identifier. -/
def declare (p : Progress) (d : Declaration) (location : Location) (event : Event) : Progress :=
  { p with
    ids := p.ids.advance
    declarations := p.declarations ++ [d]
    symbols := p.symbols.insert d.id location
    log := p.log ++ [event] }

/-- The location of a declaration of a file. -/
def locationIn (file : String) (position : Position) : Location :=
  .ofCounts file position.line position.column

/-- One item of a file, and the error that stops the walk there. -/
def step (file : String) (p : Progress) : Item → Progress × Option LoweringError
  | .ofImport i =>
    match i.lower with
    | ⟨log, .ok names⟩ => ({ p with imports := p.imports ++ names, log := p.log ++ log }, none)
    | ⟨log, .error e⟩ => ({ p with log := p.log ++ log }, some e)
  | .ofStruct s =>
    match s.lower p.ids.next with
    | .ok d =>
      (p.declare d (locationIn file s.position) (.structDeclared s.name p.ids.next), none)
    | .error e => (p, some e)
  | .ofFunction f =>
    match f.lower p.ids.next with
    | .ok d =>
      (p.declare d (locationIn file f.position) (.functionDeclared f.name.name p.ids.next), none)
    | .error e => (p, some e)

/-- Items of a file up to the first one with a defect. -/
def walk (file : String) (p : Progress) : List Item → Progress × Option LoweringError
  | [] => (p, none)
  | item :: rest =>
    match p.step file item with
    | (p, none) => p.walk file rest
    | (p, some e) => (p, some e)

end Progress

/-! ## Modules -/

/-- What a module gives: its imports and its declarations. -/
structure Lowered where
  imports : List ImportName
  declarations : List Declaration
  deriving DecidableEq

/-- What is left after a module has been lowered, or has not: the source of identifiers, the symbol table
and the records. -/
structure LoweringRun where
  ids : IdSource
  symbols : SymbolTable
  log : List Event
  result : Except LoweringError Lowered

/-- Lowers a module of a file, and adds the locations of its declarations to a symbol table. -/
def Module.lowerInto (m : Module) (file : String) (ids : IdSource) (symbols : SymbolTable) :
    LoweringRun :=
  match Progress.walk file { ids } m.items with
  | (p, none) =>
    { ids := p.ids
      symbols := symbols.extend p.symbols
      log := p.log ++ [.lowered file p.imports.length p.declarations.length]
      result := .ok { imports := p.imports, declarations := p.declarations } }
  | (p, some e) => { ids := p.ids, symbols, log := p.log, result := .error e }

/-- Lowers a module of a file with a symbol table of its own. -/
def Module.lower (m : Module) (file : String) (ids : IdSource) : LoweringRun :=
  m.lowerInto file ids .empty

/-- What a module gives, together with its symbol table. -/
structure LoweredModule where
  lowered : Lowered
  symbols : SymbolTable

/-- The lowered module of a run that did not fail. -/
def LoweringRun.module (r : LoweringRun) : Except LoweringError LoweredModule :=
  r.result.map fun lowered => { lowered, symbols := r.symbols }

def LoweredModule.toJson (m : LoweredModule) : Json :=
  .object [
    ("imports", encode m.lowered.imports), ("references", encode m.lowered.declarations),
    ("symbols", m.symbols.toJson)]

/-! ## Checks -/

/-- What is left after a check: the source of identifiers, the records, and the error if there is one. -/
structure CheckRun where
  ids : IdSource
  log : List Event
  result : Except LoweringError Unit

/-- Checks a source file. Only modules can be checked, and a module passes if it can be lowered. -/
def SourceTree.check (tree : SourceTree) (file : String) (ids : IdSource) : CheckRun :=
  match tree with
  | .module m =>
    match m.lower file ids with
    | { ids, log, result := .ok _, .. } => { ids, log := log ++ [.passed file], result := .ok () }
    | { ids, log, result := .error e, .. } => { ids, log, result := .error e }
  | .configuration c =>
    { ids, log := [], result := .error (.typeMismatch "Module" (SourceTree.configuration c).kind) }

/-- The word for a module that has passed the check. -/
def passWord : String := "PASS"

end FrontEnd
