import FrontEnd.Tree.Store

/-! # Cursors

A cursor stands at a node of a tree of either form and answers the same questions in both. The forms differ
in two answers only: in a store `length` and `allData` speak of the whole store, in a rose tree of what
lies below the cursor.
-/

namespace FrontEnd

/-- A place in a tree. -/
inductive Cursor (α : Type) where
  | shared (store : NodeStore α) (node : Fin store.size)
  | owned (tree : RoseTree α)

namespace Cursor

variable {α : Type}

def value : Cursor α → α
  | .shared store node => store.value node
  | .owned tree => tree.value

/-- The cursors at the children, in their order. -/
def children : Cursor α → List (Cursor α)
  | .shared store node => (store.childNodes node).map (.shared store)
  | .owned tree => tree.children.map .owned

def childCount (c : Cursor α) : Nat := c.children.length

def isLeaf (c : Cursor α) : Bool := c.childCount == 0

def child? (c : Cursor α) (i : Nat) : Option (Cursor α) := c.children[i]?

/-- The cursor at the end of a path. -/
def at? : List Nat → Cursor α → Option (Cursor α)
  | [], c => some c
  | i :: path, c => (c.child? i).bind (at? path)

def childValues (c : Cursor α) : List α := c.children.map value

/-- The number of nodes of the store, or of the tree below the cursor. -/
def length : Cursor α → Nat
  | .shared store _ => store.size
  | .owned tree => tree.size

/-- The values of the store as they were added, or of the tree below the cursor level by level. -/
def allData : Cursor α → List α
  | .shared store _ => store.allData
  | .owned tree => tree.allData

/-- The values below the cursor in an order. -/
def collect (order : Order) : Cursor α → List α
  | .shared store node => store.collect order node
  | .owned tree => tree.collect order

def subtree : Cursor α → RoseTree α
  | .shared store node => store.subtree node
  | .owned tree => tree

end Cursor

/-! ## Trees as text -/

def bracketed (items : List String) : String :=
  "[" ++ ", ".intercalate items ++ "]"

/-- The name of a record and its fields, in braces. -/
def describedRecord (name : String) (fields : List (String × String)) : String :=
  name ++ " \x7b " ++ ", ".intercalate (fields.map fun (field, text) => field ++ ": " ++ text) ++ " \x7d"

namespace RoseTree

variable {α : Type}

mutual

def describe (text : α → String) : RoseTree α → String
  | .node value children =>
    describedRecord "LinkedTree"
      [("value", text value), ("children", bracketed (describeAll text children))]

/-- The trees of a list as texts. -/
def describeAll (text : α → String) : List (RoseTree α) → List String
  | [] => []
  | t :: ts => t.describe text :: describeAll text ts

end

end RoseTree

namespace NodeStore

variable {α : Type}

/-- The nodes that have children, each with the indexes of its children. -/
def relations (s : NodeStore α) : List (Nat × List Nat) :=
  ((List.range s.size).map fun i => (i, s.children i)).filter fun entry => entry.2 ≠ []

def describeRelations (s : NodeStore α) : String :=
  "\x7b" ++ ", ".intercalate (s.relations.map fun (i, children) =>
    i.repr ++ ": " ++ bracketed (children.map Nat.repr)) ++ "\x7d"

end NodeStore

namespace Cursor

variable {α : Type}

/-- The tree at the cursor as text, with all of its store. -/
def describeTree (text : α → String) : Cursor α → String
  | .shared store node =>
    describedRecord "GraphTree" [
      ("current_index", node.val.repr), ("data", bracketed (store.allData.map text)),
      ("relationships", store.describeRelations)]
  | .owned tree => tree.describe text

/-- The node at the cursor as text. -/
def describeNode (text : α → String) : Cursor α → String
  | .shared store node =>
    describedRecord "GraphNode" [("index", node.val.repr), ("value", text (store.value node))]
  | .owned tree => "LinkedNode(" ++ tree.describe text ++ ")"

end Cursor

end FrontEnd
