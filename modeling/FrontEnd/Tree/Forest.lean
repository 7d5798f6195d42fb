import FrontEnd.Tree.Cursor

/-! # Forests

A forest holds trees under handles. A handle into a store shares it with every other handle into the same
store, so what is changed through one of them shows through all; a handle of a rose tree owns it.
-/

namespace FrontEnd

/-- A handle of a tree: a node of a store of the forest, or a tree of its own. -/
inductive Handle (α : Type) where
  | shared (store : Nat) (node : Nat)
  | owned (tree : RoseTree α)

/-- The two forms a tree can have: in a store of its own, or owned by its handle. -/
inductive Form where
  | shared
  | owned
  deriving DecidableEq

/-- Trees under handles. -/
structure Forest (α : Type) where
  stores : Array (NodeStore α) := #[]
  handles : Array (Handle α) := #[]

/-- What can be done at a node of a tree. -/
inductive Edit (α : Type) where
  | setValue (value : α)
  | addChild (value : α)
  /-- Adds a copy of a tree as the last child. -/
  | graft (tree : RoseTree α)

/-- An edit at the root of a rose tree. -/
def RoseTree.edit {α : Type} (t : RoseTree α) : Edit α → RoseTree α
  | .setValue value => t.setValue value
  | .addChild value => t.addChild value
  | .graft tree => graft tree t

/-- An edit at a node of a store. -/
def NodeStore.edit {α : Type} (s : NodeStore α) (i : Nat) : Edit α → NodeStore α
  | .setValue value => s.setValue i value
  | .addChild value => s.addChild i value
  | .graft tree => s.graft i tree

namespace Forest

variable {α : Type}

/-- The forest with a new store, and a handle of its root. -/
def addStore (f : Forest α) (store : NodeStore α) : Forest α :=
  { stores := f.stores.push store, handles := f.handles.push (.shared f.stores.size 0) }

def addHandle (f : Forest α) (handle : Handle α) : Forest α :=
  { f with handles := f.handles.push handle }

/-- The forest with a new tree of one node. -/
def make (f : Forest α) (form : Form) (value : α) : Forest α :=
  match form with
  | .shared => f.addStore (.singleton value)
  | .owned => f.addHandle (.owned (.leaf value))

/-- The forest with a new tree that has been filled from its root. -/
def makeShape (f : Forest α) (form : Form) (value : α) (breadth depth : Nat) : Forest α :=
  match form with
  | .shared => f.addStore (.ofShape value breadth depth)
  | .owned => f.addHandle (.owned (.ofShape value breadth depth))

/-- The handle of the node at the end of a path. -/
def handleAt? (f : Forest α) (h : Nat) (path : List Nat) : Option (Handle α) :=
  match f.handles[h]? with
  | some (.shared store node) =>
    f.stores[store]?.bind fun s => (s.descend? path node).map (.shared store)
  | some (.owned tree) => (tree.at? path).map .owned
  | none => none

def cursorOf? (f : Forest α) : Handle α → Option (Cursor α)
  | .shared store node =>
    f.stores[store]?.bind fun s => if h : node < s.size then some (.shared s ⟨node, h⟩) else none
  | .owned tree => some (.owned tree)

/-- The cursor at the end of a path from a handle. -/
def cursor? (f : Forest α) (h : Nat) (path : List Nat) : Option (Cursor α) :=
  (f.handleAt? h path).bind f.cursorOf?

/-- The forest after an edit at the end of a path from a handle. -/
def edit? (f : Forest α) (h : Nat) (path : List Nat) (edit : Edit α) : Option (Forest α) :=
  match f.handles[h]? with
  | some (.shared store node) =>
    f.stores[store]?.bind fun s =>
      (s.descend? path node).map fun i => { f with stores := f.stores.setIfInBounds store (s.edit i edit) }
  | some (.owned tree) =>
    (tree.modifyAt? (fun t => t.edit edit) path).map fun changed =>
      { f with handles := f.handles.setIfInBounds h (.owned changed) }
  | none => none

/-- The forest after several edits at one place. -/
def edits? (f : Forest α) (h : Nat) (path : List Nat) (edits : List (Edit α)) : Option (Forest α) :=
  edits.foldlM (fun f edit => f.edit? h path edit) f

/-- The forest with a branch of new nodes under the end of a path, each the child of the one before. -/
def grow? (f : Forest α) (h : Nat) (path : List Nat) : List α → Option (Forest α)
  | [] => some f
  | value :: rest => f.edit? h path (.graft (.branch value rest))

/-- The forest with a copy of the tree at a handle as the new last child of the node at the end of a path.
Within one store the source is read while the store grows. Everywhere else the source stays as it is while
it is copied. -/
def copy? (f : Forest α) (source : Handle α) (h : Nat) (path : List Nat) : Option (Forest α) :=
  match source, f.handleAt? h path with
  | .shared store node, some (.shared store' target) =>
    if store = store' then
      f.stores[store]?.bind fun s =>
        (s.copyWithin? node target).map fun s => { f with stores := f.stores.setIfInBounds store s }
    else (f.cursorOf? source).bind fun c => f.edit? h path (.graft c.subtree)
  | _, _ => (f.cursorOf? source).bind fun c => f.edit? h path (.graft c.subtree)

/-- Whether two handles are into one store, or own equal trees. -/
def sameTree [DecidableEq α] (f : Forest α) (g h : Nat) : Bool :=
  match f.handles[g]?, f.handles[h]? with
  | some (.shared s _), some (.shared t _) => s = t
  | some (.owned t), some (.owned u) => t = u
  | _, _ => false

end Forest

end FrontEnd
