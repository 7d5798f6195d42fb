import FrontEnd.Proofs.Tree.View

/-! # Depth-first walks

The nodes that wait in a depth-first walk come from several levels at once. But a node that waits is not
visited before everything below the nodes in front of it, so a walk of several nodes is their walks, one
after another. Hence a depth-first walk is the recursion over the tree: from the left it is the pre-order,
and from the right it is the post-order backwards (`Cursor.collect_depth_first`).
-/

namespace FrontEnd

namespace RoseTree

variable {α : Type}

mutual

/-- The values of a tree, each before the ones below it, from the left to the right. -/
def preorder : RoseTree α → List α
  | .node value children => value :: preorderAll children

/-- The pre-orders of some trees, one after another. -/
def preorderAll : List (RoseTree α) → List α
  | [] => []
  | t :: ts => t.preorder ++ preorderAll ts

end

mutual

/-- The values of a tree, each behind the ones below it, from the left to the right. -/
def postorder : RoseTree α → List α
  | .node value children => postorderAll children ++ [value]

/-- The post-orders of some trees, one after another. -/
def postorderAll : List (RoseTree α) → List α
  | [] => []
  | t :: ts => t.postorder ++ postorderAll ts

end

end RoseTree

/-! ## Walks of several nodes -/

namespace Nodes

variable {ν α : Type} (nodes : Nodes ν α) {order : Order}

/-- Nodes that wait behind others are visited after all that is below those. The induction is on the walk
of the nodes in front: what their children push back stays behind. -/
theorem walk_append (depth : order.isDepth = true) (front all : Queue ν) (behind : List ν)
    (h : all.toList = front.toList ++ behind) :
    nodes.walk order all = nodes.walk order front ++ nodes.walk order (.ofList behind) := by
  fun_induction nodes.walk order front generalizing all with
  | case1 front hnext =>
    rw [List.nil_append]
    apply nodes.walk_congr
    rw [h, Queue.next?_eq_none_iff.1 hnext, List.nil_append, Queue.toList_ofList]
  | case2 front n rest hnext hlist ih =>
    rw [hlist, List.cons_append] at h
    rw [nodes.walk_of_toList_eq_cons order h, List.cons_append]
    congr 1
    apply ih
    simp [Order.toList_put, depth]

/-- A depth-first walk of some nodes is their walks, one after another. -/
theorem walk_ofList_eq_flatMap (depth : order.isDepth = true) (ns : List ν) :
    nodes.walk order (.ofList ns) = ns.flatMap (nodes.collect order) := by
  induction ns with
  | nil => exact nodes.walk_of_toList_eq_nil order (Queue.toList_ofList [])
  | cons n ns ih =>
    rw [List.flatMap_cons, ← ih, collect]
    exact nodes.walk_append depth _ _ ns (by simp)

/-- A depth-first walk is the value of the node and then the walks of its children. -/
theorem collect_of_isDepth (depth : order.isDepth = true) (n : ν) :
    nodes.collect order n
      = nodes.value n :: (order.arrange (nodes.children n)).flatMap (nodes.collect order) := by
  rw [collect, nodes.walk_of_toList_eq_cons order (Queue.toList_ofList [n]),
    ← nodes.walk_ofList_eq_flatMap depth]
  congr 1
  apply nodes.walk_congr
  simp [Order.toList_put, depth]

end Nodes

/-! ## Walks of trees -/

namespace RoseTree

variable {α : Type}

mutual

theorem collect_leftDepth : ∀ t : RoseTree α, t.collect .leftDepth = t.preorder
  | .node v ts => by
    rw [preorder, ← flatMap_collect_leftDepth ts]
    exact nodes.collect_of_isDepth rfl (.node v ts)

theorem flatMap_collect_leftDepth :
    ∀ ts : List (RoseTree α), ts.flatMap (collect .leftDepth) = preorderAll ts
  | [] => rfl
  | t :: ts => by
    rw [List.flatMap_cons, preorderAll, collect_leftDepth t, flatMap_collect_leftDepth ts]

end

mutual

theorem reverse_collect_rightDepth : ∀ t : RoseTree α, (t.collect .rightDepth).reverse = t.postorder
  | .node v ts => by
    have hwalk : (node v ts).collect .rightDepth = v :: ts.reverse.flatMap (collect .rightDepth) :=
      nodes.collect_of_isDepth rfl (.node v ts)
    rw [hwalk, List.reverse_cons, List.reverse_flatMap, List.reverse_reverse, postorder,
      ← flatMap_reverse_collect_rightDepth ts]
    rfl

theorem flatMap_reverse_collect_rightDepth : ∀ ts : List (RoseTree α),
    ts.flatMap (fun t => (t.collect .rightDepth).reverse) = postorderAll ts
  | [] => rfl
  | t :: ts => by
    rw [List.flatMap_cons, postorderAll, reverse_collect_rightDepth t,
      flatMap_reverse_collect_rightDepth ts]

end

end RoseTree

namespace Cursor

variable {α : Type}

/-- **A depth-first walk is the recursion over the tree.** In both forms and from every node, the walk from
the left is the value of the node and then the walks of its children from the first to the last, and the
walk from the right takes the children from the last to the first. So the one is the pre-order of the tree
below the node, and the other backwards its post-order. -/
theorem collect_depth_first (c : Cursor α) :
    c.collect .leftDepth = c.value :: c.children.flatMap (collect .leftDepth) ∧
      c.collect .rightDepth = c.value :: c.children.reverse.flatMap (collect .rightDepth) ∧
      c.collect .leftDepth = c.subtree.preorder ∧
      (c.collect .rightDepth).reverse = c.subtree.postorder := by
  have hwalk : ∀ order : Order, order.isDepth = true →
      c.collect order = c.value :: (order.arrange c.children).flatMap (collect order) := by
    intro order depth
    have hcollect : collect order = (nodes : Nodes (Cursor α) α).collect order :=
      funext (collect_eq_nodes order)
    rw [hcollect]
    exact nodes.collect_of_isDepth depth c
  refine ⟨hwalk .leftDepth rfl, hwalk .rightDepth rfl, ?_, ?_⟩
  · rw [collect_eq, RoseTree.collect_leftDepth]
  · rw [collect_eq, RoseTree.reverse_collect_rightDepth]

end Cursor

end FrontEnd
