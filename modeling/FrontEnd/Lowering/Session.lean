import FrontEnd.Lowering.Module

/-! # Sessions

A session lowers and checks modules one after the other with one source of identifiers and one symbol table.
-/

namespace FrontEnd

/-- What the steps of a session share. -/
structure Session where
  ids : IdSource := {}
  symbols : SymbolTable := .empty

namespace Session

/-- Takes the next identifier. -/
def takeId (s : Session) : UInt64 × Session := (s.ids.next, { s with ids := s.ids.advance })

/-- Starts again from the first identifier. -/
def resetIds (s : Session) : Session := { s with ids := {} }

/-- Empties the symbol table. -/
def clearSymbols (s : Session) : Session := { s with symbols := .empty }

/-- Lowers a module into the symbol table of the session. -/
def lowerInto (s : Session) (file : String) (m : Module) : LoweringRun × Session :=
  let run := m.lowerInto file s.ids s.symbols
  (run, { ids := run.ids, symbols := run.symbols })

/-- Lowers a module with a symbol table of its own. -/
def lower (s : Session) (file : String) (m : Module) : LoweringRun × Session :=
  let run := m.lower file s.ids
  (run, { s with ids := run.ids })

/-- Checks a source file. -/
def check (s : Session) (file : String) (tree : SourceTree) : CheckRun × Session :=
  let run := tree.check file s.ids
  (run, { s with ids := run.ids })

end Session

end FrontEnd
