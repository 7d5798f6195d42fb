import FrontEnd.Json.Record

/-! # Positions

Where a node of a syntax tree starts in its source file. The position with an empty file name and nothing
but zeros stands for a node without a source.
-/

namespace FrontEnd

/-- The start of a node. Lines and columns count from 1, the offset is in bytes from the start of the file. -/
structure Position where
  filename : String := ""
  offset : UInt64 := 0
  line : UInt64 := 0
  column : UInt64 := 0
  deriving DecidableEq

namespace Position

/-- File, line and column with colons between them. -/
def text (p : Position) : String :=
  p.filename ++ ":" ++ p.line.toNat.repr ++ ":" ++ p.column.toNat.repr

instance : Interchange Position where
  encode p := .object [
    ("filename", encode p.filename), ("offset", encode p.offset),
    ("line", encode p.line), ("column", encode p.column)]
  decode
    | enclosed, room + 1, json =>
      match json.slots? ["filename", "offset", "line", "column"] with
      | some [filename, offset, line, column] => do
        return {
          filename := ← filename.orElse "" (decode enclosed room)
          offset := ← offset.orElse 0 (decode enclosed room)
          line := ← line.orElse 0 (decode enclosed room)
          column := ← column.orElse 0 (decode enclosed room) }
      | _ => none
    | _, _, _ => none

end Position

end FrontEnd
