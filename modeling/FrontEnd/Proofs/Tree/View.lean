import FrontEnd.Tree.Cursor

/-! # What a cursor answers

The answers about a node depend on the tree below it alone: its value, its children and the four walks are
those of the subtree, in a store as in a rose tree. Only `length` and `allData` may tell the forms apart.
-/

namespace FrontEnd

/-- A walk depends on the values and the children of the nodes. A map of nodes that keeps both keeps every
walk. -/
theorem Nodes.walk_map {ν μ α : Type} (nodes : Nodes ν α) (images : Nodes μ α) (f : ν → μ)
    (hvalue : ∀ n, images.value (f n) = nodes.value n)
    (hchildren : ∀ n, images.children (f n) = (nodes.children n).map f) (order : Order)
    (waiting : Queue ν) (waiting' : Queue μ) (h : waiting'.toList = waiting.toList.map f) :
    images.walk order waiting' = nodes.walk order waiting := by
  fun_induction nodes.walk order waiting generalizing waiting' with
  | case1 waiting hnext =>
    have hempty : waiting'.toList = [] := by rw [h, Queue.next?_eq_none_iff.1 hnext, List.map_nil]
    exact images.walk_of_toList_eq_nil order hempty
  | case2 waiting n rest hnext hlist ih =>
    rw [hlist, List.map_cons] at h
    obtain ⟨⟨m, rest'⟩, hnext'⟩ : ∃ next, waiting'.next? = some next := by
      apply Option.ne_none_iff_exists'.1
      intro hnone
      rw [Queue.next?_eq_none_iff.1 hnone] at h
      cases h
    obtain ⟨rfl, hrest⟩ := List.cons.inj ((Queue.toList_of_next? hnext').symm.trans h)
    rw [images.walk_of_next? order hnext', hvalue]
    congr 1
    apply ih
    rw [Order.toList_put, Order.toList_put, hchildren, hrest]
    cases order <;> simp [Order.arrange, Order.isLeft, Order.isDepth]

/-- How the queue is kept makes no difference to a walk. -/
theorem Nodes.walk_congr {ν α : Type} (nodes : Nodes ν α) (order : Order) {waiting waiting' : Queue ν}
    (h : waiting'.toList = waiting.toList) : nodes.walk order waiting' = nodes.walk order waiting :=
  nodes.walk_map nodes id (fun _ => rfl) (fun _ => (List.map_id _).symm) order waiting waiting'
    (by rw [h, List.map_id])

/-- A walk visits the first of the waiting nodes, and its children wait from then on. -/
theorem Nodes.walk_of_toList_eq_cons {ν α : Type} (nodes : Nodes ν α) (order : Order)
    {waiting : Queue ν} {n : ν} {rest : List ν} (h : waiting.toList = n :: rest) :
    nodes.walk order waiting
      = nodes.value n :: nodes.walk order (order.put (nodes.children n) (.ofList rest)) := by
  have hlist : (Queue.ofList (n :: rest)).toList = waiting.toList := by rw [Queue.toList_ofList, h]
  rw [← nodes.walk_congr order hlist]
  exact nodes.walk_of_next? order rfl

namespace NodeStore

variable {α : Type} (s : NodeStore α) (i : Fin s.size)

theorem value_subtree : (s.subtree i).value = s.value i := by
  rw [subtree_eq, RoseTree.value]

theorem children_subtree : (s.subtree i).children = (s.childNodes i).map s.subtree := by
  rw [subtree_eq, RoseTree.children]

theorem collect_subtree (order : Order) : (s.subtree i).collect order = s.collect order i := by
  unfold RoseTree.collect NodeStore.collect Nodes.collect
  apply Nodes.walk_map s.walkable RoseTree.nodes s.subtree
  · exact s.value_subtree
  · exact s.children_subtree
  · simp

end NodeStore

namespace Cursor

variable {α : Type}

theorem value_eq (c : Cursor α) : c.value = c.subtree.value := by
  cases c with
  | shared s i => exact (s.value_subtree i).symm
  | owned t => rfl

theorem map_subtree_children (c : Cursor α) : c.children.map subtree = c.subtree.children := by
  cases c with
  | shared s i => simp [children, subtree, s.children_subtree i, Function.comp_def]
  | owned t => simp [children, subtree, Function.comp_def]

theorem childCount_eq (c : Cursor α) : c.childCount = c.subtree.children.length := by
  rw [childCount, ← map_subtree_children, List.length_map]

theorem childValues_eq (c : Cursor α) : c.childValues = c.subtree.children.map RoseTree.value := by
  rw [childValues, ← map_subtree_children, List.map_map]
  exact List.map_congr_left fun d _ => d.value_eq

theorem collect_eq (c : Cursor α) (order : Order) : c.collect order = c.subtree.collect order := by
  cases c with
  | shared s i => exact (s.collect_subtree i order).symm
  | owned t => rfl

/-- Cursors as the nodes of a walk. -/
def nodes : Nodes (Cursor α) α where
  value := value
  children := children
  weight c := c.subtree.size
  children_lt c := by
    have hchildren : total RoseTree.size c.subtree.children
        = total (fun d : Cursor α => d.subtree.size) c.children := by
      rw [← map_subtree_children, total_map]
    rw [← hchildren, RoseTree.size_eq c.subtree, RoseTree.sizeOfAll_eq_total]
    omega

/-- In both forms a walk is a walk over cursors. -/
theorem collect_eq_nodes (order : Order) (c : Cursor α) : c.collect order = nodes.collect order c := by
  rw [collect_eq]
  apply nodes.walk_map RoseTree.nodes subtree
  · exact fun d => d.value_eq.symm
  · exact fun d => d.map_subtree_children.symm
  · simp

/-- Two cursors give the same answers about the nodes they stand at. -/
structure Alike (c d : Cursor α) : Prop where
  value : c.value = d.value
  childCount : c.childCount = d.childCount
  isLeaf : c.isLeaf = d.isLeaf
  childValues : c.childValues = d.childValues
  collect : ∀ order, c.collect order = d.collect order

/-- Cursors at equal trees give the same answers. -/
theorem alike_of_subtree_eq {c d : Cursor α} (h : c.subtree = d.subtree) : c.Alike d where
  value := by rw [value_eq, value_eq, h]
  childCount := by rw [childCount_eq, childCount_eq, h]
  isLeaf := by rw [isLeaf, isLeaf, childCount_eq, childCount_eq, h]
  childValues := by rw [childValues_eq, childValues_eq, h]
  collect order := by rw [collect_eq, collect_eq, h]

end Cursor

end FrontEnd
