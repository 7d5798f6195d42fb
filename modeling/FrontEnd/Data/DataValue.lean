import FrontEnd.Json.Record

/-! # Data values

The value of a node of a data tree: its type and the text it is written with. Groups have no text, what they
hold stands under their node.
-/

namespace FrontEnd

/-- The type of a data value. -/
inductive TypeId where
  | noType
  | boolean
  | byte
  | char
  | integer
  | decimal
  | text
  | list
  | struct
  deriving DecidableEq

namespace TypeId

def name : TypeId → String
  | .noType => "NO_TYPE"
  | .boolean => "BOOLEAN"
  | .byte => "BYTE"
  | .char => "CHAR"
  | .integer => "INTEGER"
  | .decimal => "DECIMAL"
  | .text => "TEXT"
  | .list => "LIST"
  | .struct => "STRUCT"

def all : List TypeId :=
  [.noType, .boolean, .byte, .char, .integer, .decimal, .text, .list, .struct]

def compare (t u : TypeId) : Ordering := Ord.compare (all.idxOf t) (all.idxOf u)

instance : Interchange TypeId where
  encode type := encode type.name
  decode _ room json :=
    (json.choiceName? room).bind fun name => all.find? fun type => type.name == name

end TypeId

/-- A type and a text. -/
structure DataValue where
  typeId : TypeId := .noType
  text : String := ""
  deriving DecidableEq

namespace DataValue

def group (typeId : TypeId) : DataValue := { typeId }

/-- The type, with the text in brackets unless it is empty. -/
def describe (v : DataValue) : String :=
  if v.text.isEmpty then v.typeId.name else v.typeId.name ++ "(" ++ v.text ++ ")"

instance : Interchange DataValue where
  encode v := .object [("type_id", encode v.typeId), ("text", encode v.text)]
  decode
    | enclosed, room + 1, json =>
      match json.slots? ["type_id", "text"] with
      | some [typeId, text] => do
        return {
          typeId := ← typeId.required (decode enclosed room)
          text := ← text.required (decode enclosed room) }
      | _ => none
    | _, _, _ => none

end DataValue

end FrontEnd
