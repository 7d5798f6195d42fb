import FrontEnd.Lowering.Error
import FrontEnd.Tree.Store

/-! # Trees of values

A literal value becomes a tree of data values. A scalar is one node. A group is a node with the scalars in
it as its children, in the order of the source; a group inside a group adds no node, its scalars join those
of the group around it.
-/

namespace FrontEnd

/-- The type of the scalars of a kind. -/
def ScalarKind.typeId : ScalarKind → TypeId
  | .bool => .boolean
  | .float => .decimal
  | .int => .integer
  | .string => .text
  | .char => .char

/-- The type of the groups of a kind. -/
def GroupKind.typeId : GroupKind → TypeId
  | .list => .list
  | .struct => .struct

namespace Value

/-- The text of a scalar: a character literal stands for its character, any other scalar for itself. -/
def scalarText (kind : ScalarKind) (position : Position) (text : String) :
    Except LoweringError String :=
  match kind with
  | .char =>
    match CharLiteral.read text position with
    | .ok c => .ok c.toString
    | .error e => .error (.literal e)
  | _ => .ok text

/-- The data value of the node of a value, without its members. -/
def dataValue : Value → Except LoweringError DataValue
  | .scalar kind position text =>
    (scalarText kind position text).map fun text => { typeId := kind.typeId, text }
  | .group kind _ _ => .ok (.group kind.typeId)

/-- The data value of a value, with a record of it. -/
def readData (v : Value) : Logged DataValue :=
  match v.dataValue with
  | .ok data => ⟨[.valueRead data v.position], .ok data⟩
  | .error e => ⟨[], .error e⟩

mutual

/-- The data values of the scalars in a value, up to the first one that has none. -/
def scalars : Value → Logged (List DataValue)
  | .scalar kind position text =>
    let read := readData (.scalar kind position text)
    ⟨read.log, read.result.map fun data => [data]⟩
  | .group _ position members =>
    let rest := scalarsOfAll members
    ⟨.groupSpliced position :: rest.log, rest.result⟩

/-- The data values of the scalars in some values, up to the first one that has none. -/
def scalarsOfAll : List Value → Logged (List DataValue)
  | [] => ⟨[], .ok []⟩
  | value :: rest =>
    match scalars value with
    | ⟨log, .error e⟩ => ⟨log, .error e⟩
    | ⟨log, .ok data⟩ =>
      let more := scalarsOfAll rest
      ⟨log ++ more.log, more.result.map fun others => data ++ others⟩

end

def tree (v : Value) : Logged (NodeStore DataValue) :=
  match readData v with
  | ⟨log, .error e⟩ => ⟨log, .error e⟩
  | ⟨log, .ok root⟩ =>
    let members := scalarsOfAll v.members
    ⟨log ++ members.log, members.result.map fun data =>
      data.foldl (fun store value => store.addChild 0 value) (.singleton root)⟩

end Value

end FrontEnd
