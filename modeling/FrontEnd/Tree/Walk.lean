import FrontEnd.Tree.Queue
import FrontEnd.Tree.Rose

/-! # Walks

A walk keeps a queue of nodes to visit. It visits the first of them and puts the children of that node into
the queue: in front of the others for a depth-first walk, behind them for a breadth-first one, and from the
left or from the right. The queue weighs less after each visit, so every walk ends.
-/

namespace FrontEnd

def total {ν : Type} (weight : ν → Nat) : List ν → Nat
  | [] => 0
  | n :: ns => weight n + total weight ns

theorem total_append {ν : Type} (weight : ν → Nat) (ms ns : List ν) :
    total weight (ms ++ ns) = total weight ms + total weight ns := by
  induction ms with
  | nil => simp [total]
  | cons m ms ih => simp [total, ih, Nat.add_assoc]

theorem total_reverse {ν : Type} (weight : ν → Nat) (ns : List ν) :
    total weight ns.reverse = total weight ns := by
  induction ns with
  | nil => rfl
  | cons n ns ih => simp [total_append, total, ih, Nat.add_comm]

theorem total_map {ν μ : Type} (weight : μ → Nat) (f : ν → μ) (ns : List ν) :
    total weight (ns.map f) = total (fun n => weight (f n)) ns := by
  induction ns with
  | nil => rfl
  | cons n ns ih => simp [total, ih]

/-- The four orders of a walk. -/
inductive Order where
  | leftDepth
  | rightDepth
  | leftBreadth
  | rightBreadth
  deriving DecidableEq

namespace Order

/-- Whether new nodes are visited before the ones that wait already. -/
def isDepth : Order → Bool
  | .leftDepth => true
  | .rightDepth => true
  | _ => false

/-- Whether the first child is visited before the last one. -/
def isLeft : Order → Bool
  | .leftDepth => true
  | .leftBreadth => true
  | _ => false

/-- The children of a node in the order in which they are visited. -/
def arrange {ν : Type} (order : Order) (children : List ν) : List ν :=
  if order.isLeft then children else children.reverse

/-- The nodes to visit once the children of a node have joined the ones that wait. -/
def put {ν : Type} (order : Order) (children : List ν) (waiting : Queue ν) : Queue ν :=
  if order.isDepth then waiting.prepend (order.arrange children)
  else waiting.append (order.arrange children)

theorem toList_put {ν : Type} (order : Order) (children : List ν) (waiting : Queue ν) :
    (order.put children waiting).toList
      = if order.isDepth then order.arrange children ++ waiting.toList
        else waiting.toList ++ order.arrange children := by
  unfold put
  split <;> simp

theorem total_put {ν : Type} (order : Order) (weight : ν → Nat) (children : List ν)
    (waiting : Queue ν) :
    total weight (order.put children waiting).toList
      = total weight children + total weight waiting.toList := by
  cases order <;>
    simp [toList_put, arrange, isLeft, isDepth, total_append, total_reverse, Nat.add_comm]

end Order

/-- What a walk needs to know of the nodes of a tree. The weight of a node exceeds that of all its children
together. -/
structure Nodes (ν α : Type) where
  value : ν → α
  children : ν → List ν
  weight : ν → Nat
  children_lt : ∀ n, total weight (children n) < weight n

namespace Nodes

variable {ν α : Type}

/-- The values of the nodes below the nodes that wait, in an order. -/
def walk (nodes : Nodes ν α) (order : Order) (waiting : Queue ν) : List α :=
  match h : waiting.next? with
  | none => []
  | some (n, rest) =>
    have := Queue.toList_of_next? h
    nodes.value n :: nodes.walk order (order.put (nodes.children n) rest)
termination_by total nodes.weight waiting.toList
decreasing_by
  rw [Order.total_put, this, total]
  have := nodes.children_lt n
  omega

theorem walk_of_toList_eq_nil (nodes : Nodes ν α) (order : Order) {waiting : Queue ν}
    (h : waiting.toList = []) : nodes.walk order waiting = [] := by
  have hn := Queue.next?_eq_none_iff.2 h
  unfold walk
  split
  · rfl
  · next hs => simp [hn] at hs

theorem walk_of_next? (nodes : Nodes ν α) (order : Order) {waiting rest : Queue ν} {n : ν}
    (h : waiting.next? = some (n, rest)) :
    nodes.walk order waiting
      = nodes.value n :: nodes.walk order (order.put (nodes.children n) rest) := by
  conv => lhs; unfold walk
  split
  · next hn => simp [h] at hn
  · next m more hs =>
    rw [h] at hs
    cases hs
    rfl

/-- The values of the nodes below a node, in an order. -/
def collect (nodes : Nodes ν α) (order : Order) (root : ν) : List α :=
  nodes.walk order (.ofList [root])

end Nodes

namespace RoseTree

variable {α : Type}

theorem sizeOfAll_eq_total (ts : List (RoseTree α)) : sizeOfAll ts = total size ts := by
  induction ts with
  | nil => rfl
  | cons t ts ih => simp [sizeOfAll, total, ih]

/-- The subtrees of a rose tree as nodes. -/
def nodes : Nodes (RoseTree α) α where
  value := value
  children := children
  weight := size
  children_lt t := by rw [t.size_eq, sizeOfAll_eq_total]; omega

/-- The values of a tree in an order. -/
def collect (order : Order) (t : RoseTree α) : List α := nodes.collect order t

/-- All values of a tree, level by level. -/
def allData (t : RoseTree α) : List α := t.collect .leftBreadth

end RoseTree

end FrontEnd
