import FrontEnd.Json.Record

/-! # Locations

Where a declaration stands in its source file. Lines and columns count from 1 here, without exception.
-/

namespace FrontEnd

/-- The place of a declaration. -/
structure Location where
  fileName : String
  line : UInt64
  column : UInt64
  line_ne_zero : line ≠ 0
  column_ne_zero : column ≠ 0
  deriving DecidableEq

namespace Location

/-- A count from 1 that is at least `n`: a zero is raised to 1. -/
def raise (n : UInt64) : UInt64 := if n = 0 then 1 else n

theorem raise_ne_zero (n : UInt64) : raise n ≠ 0 := by
  unfold raise
  split
  · decide
  · assumption

@[simp] theorem raise_of_ne_zero {n : UInt64} (h : n ≠ 0) : raise n = n := by simp [raise, h]

/-- The location of a line and a column, with zeros raised to 1. -/
def ofCounts (fileName : String) (line column : UInt64) : Location :=
  ⟨fileName, raise line, raise column, raise_ne_zero line, raise_ne_zero column⟩

/-- File, line and column with colons between them. -/
def text (l : Location) : String :=
  l.fileName ++ ":" ++ l.line.toNat.repr ++ ":" ++ l.column.toNat.repr

/-- The order by file, then line, then column. Files are in the order of their characters. -/
def compare (l m : Location) : Ordering :=
  (Ord.compare l.fileName m.fileName).then
    ((Ord.compare l.line m.line).then (Ord.compare l.column m.column))

instance : Interchange Location where
  encode l := .object [
    ("file_name", encode l.fileName), ("line", encode l.line), ("column", encode l.column)]
  decode
    | enclosed, room + 1, json =>
      match json.slots? ["file_name", "line", "column"] with
      | some [fileName, line, column] => do
        let fileName ← fileName.required (decode enclosed room)
        let line ← line.required (decode enclosed room)
        let column ← column.required (decode enclosed room)
        if h : line ≠ 0 ∧ column ≠ 0 then
          return { fileName, line, column, line_ne_zero := h.1, column_ne_zero := h.2 }
        else none
      | _ => none
    | _, _, _ => none

end Location

end FrontEnd
