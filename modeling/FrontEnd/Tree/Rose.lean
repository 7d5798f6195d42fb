/-! # Rose trees

A rose tree owns its children. A path of child indexes leads from the root to a node, and what is done at
a node leaves everything off the path as it is.
-/

namespace FrontEnd

/-- A tree whose nodes have any number of children, in an order. -/
inductive RoseTree (α : Type) where
  | node (value : α) (children : List (RoseTree α))

namespace RoseTree

variable {α : Type}

def value : RoseTree α → α
  | .node value _ => value

def children : RoseTree α → List (RoseTree α)
  | .node _ children => children

theorem eta (t : RoseTree α) : t = .node t.value t.children := by
  cases t
  rfl

def leaf (value : α) : RoseTree α := .node value []

mutual

def size : RoseTree α → Nat
  | .node _ children => 1 + sizeOfAll children

/-- The number of nodes of a list of trees. -/
def sizeOfAll : List (RoseTree α) → Nat
  | [] => 0
  | t :: ts => t.size + sizeOfAll ts

end

theorem sizeOfAll_append (ts us : List (RoseTree α)) :
    sizeOfAll (ts ++ us) = sizeOfAll ts + sizeOfAll us := by
  induction ts with
  | nil => simp [sizeOfAll]
  | cons t ts ih => simp [sizeOfAll, ih, Nat.add_assoc]

theorem size_eq (t : RoseTree α) : t.size = 1 + sizeOfAll t.children := by
  cases t
  rfl

/-! ## Equality -/

section Equality

variable [DecidableEq α]

mutual

def same : RoseTree α → RoseTree α → Bool
  | .node v ts, .node w us => v = w ∧ sameAll ts us

/-- Whether two lists of trees are the same. -/
def sameAll : List (RoseTree α) → List (RoseTree α) → Bool
  | [], [] => true
  | t :: ts, u :: us => same t u && sameAll ts us
  | _, _ => false

end

mutual

theorem same_iff : ∀ t u : RoseTree α, same t u = true ↔ t = u
  | .node _ ts, u => by cases u; simp [same, sameAll_iff ts]

theorem sameAll_iff : ∀ ts us : List (RoseTree α), sameAll ts us = true ↔ ts = us
  | [], us => by cases us <;> simp [sameAll]
  | t :: ts, us => by cases us <;> simp [sameAll, same_iff t, sameAll_iff ts]

end

instance : DecidableEq (RoseTree α) := fun t u => decidable_of_iff _ (same_iff t u)

end Equality

/-! ## Paths -/

/-- The subtree at the end of a path. -/
def at? : List Nat → RoseTree α → Option (RoseTree α)
  | [], t => some t
  | i :: path, t => t.children[i]?.bind (at? path)

/-- The tree with the subtree at the end of a path changed. -/
def modifyAt? (change : RoseTree α → RoseTree α) : List Nat → RoseTree α → Option (RoseTree α)
  | [], t => some (change t)
  | i :: path, t =>
    t.children[i]?.bind fun child =>
      (modifyAt? change path child).map fun changed => .node t.value (t.children.set i changed)

/-! ## Changes at the root -/

/-- The tree with another value at the root. -/
def setValue (value : α) (t : RoseTree α) : RoseTree α := .node value t.children

/-- The tree with another tree as its new last child. -/
def graft (child : RoseTree α) (t : RoseTree α) : RoseTree α := .node t.value (t.children ++ [child])

/-- The tree with a new last child of one node. -/
def addChild (value : α) (t : RoseTree α) : RoseTree α := graft (leaf value) t

/-- The tree with `breadth` more children at the root, and each of its first `breadth` children filled in
the same way, `depth` levels deep. -/
def fill (value : α) (breadth : Nat) : (depth : Nat) → RoseTree α → RoseTree α
  | 0, t => t
  | depth + 1, t =>
    let children := t.children ++ List.replicate breadth (leaf value)
    .node t.value
      ((children.take breadth).map (fun child => fill value breadth depth child)
        ++ children.drop breadth)

/-- A tree that has been filled from its root. -/
def ofShape (value : α) (breadth depth : Nat) : RoseTree α := fill value breadth depth (leaf value)

/-- A branch of nodes, each the only child of the one before. -/
def branch (value : α) : List α → RoseTree α
  | [] => leaf value
  | next :: rest => .node value [branch next rest]

end RoseTree

end FrontEnd
