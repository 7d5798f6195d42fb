import FrontEnd.Proofs.Tree.Visits
import Mathlib.Algebra.BigOperators.Ring.Finset

/-!
# Full trees

A tree that is made by filling has all the nodes that it can have: the paths of at most `depth` steps, each
to one of `breadth` children, lead to nodes, and no other path does. In a store the children of a node are
all added before the first of them is filled, so that children and subtrees lie among one another; but the
store represents the tree that is filled child by child (`NodeStore.represents_ofShape`), and the tree tells
its paths and its size.
-/

namespace FrontEnd

namespace RoseTree

variable {α : Type}

/-- The subtrees of a filled tree are filled trees, as deep as there is room below. -/
theorem at?_ofShape (v : α) (breadth depth : Nat) (path : List Nat) :
    (ofShape v breadth depth).at? path
      = if path.length ≤ depth ∧ ∀ k ∈ path, k < breadth then some (ofShape v breadth (depth - path.length))
        else none := by
  induction path generalizing depth with
  | nil => simp [at?]
  | cons k path ih =>
    cases depth with
    | zero => simp [at?, ofShape, fill, leaf, children]
    | succ depth =>
      rw [ofShape_succ, at?, children]
      by_cases hk : k < breadth
      · rw [List.getElem?_replicate, if_pos hk, Option.bind_some, ih]
        simp [hk]
      · rw [List.getElem?_replicate, if_neg hk, Option.bind_none]
        simp [hk]

theorem sizeOfAll_replicate (n : Nat) (t : RoseTree α) :
    sizeOfAll (List.replicate n t) = n * t.size := by
  induction n with
  | zero => simp [sizeOfAll]
  | succ n ih => rw [List.replicate_succ, sizeOfAll, ih, Nat.succ_mul, Nat.add_comm]

/-- A filled tree has a power of its breadth of nodes in each level. -/
theorem size_ofShape (v : α) (breadth depth : Nat) :
    (ofShape v breadth depth).size = ∑ i ∈ Finset.range (depth + 1), breadth ^ i := by
  induction depth with
  | zero => rfl
  | succ depth ih =>
    rw [ofShape_succ, size, sizeOfAll_replicate, ih, Finset.mul_sum, Finset.sum_range_succ' _ (depth + 1),
      Nat.pow_zero, Nat.add_comm]
    simp only [Nat.pow_succ']

theorem length_preorder (t : RoseTree α) : t.preorder.length = t.size := by
  rw [← (t.perm_collect .leftDepth).length_eq, t.length_collect]

theorem eq_of_mem_preorder_ofShape {v u : α} {breadth depth : Nat}
    (h : u ∈ (ofShape v breadth depth).preorder) : u = v := by
  induction depth with
  | zero => simpa [ofShape, fill, leaf, preorder, preorderAll] using h
  | succ depth ih =>
    rw [ofShape_succ, preorder, preorderAll_eq_flatMap, List.mem_cons, List.mem_flatMap] at h
    rcases h with rfl | ⟨t, ht, hu⟩
    · rfl
    · rw [List.eq_of_mem_replicate ht] at hu
      exact ih hu

end RoseTree

namespace Cursor

variable {α : Type}

/-- A path leads from a cursor to the subtree to which it leads in the tree at the cursor. -/
theorem map_subtree_at? (c : Cursor α) (path : List Nat) :
    (c.at? path).map subtree = c.subtree.at? path := by
  induction path generalizing c with
  | nil => rfl
  | cons k path ih =>
    rw [at?, RoseTree.at?, ← map_subtree_children, List.getElem?_map, child?]
    cases c.children[k]? with
    | none => rfl
    | some d => exact ih d

/-- A full tree, seen from its root. -/
structure IsFull (v : α) (breadth depth : Nat) (root : Cursor α) : Prop where
  /-- A path leads to a node exactly if it has at most `depth` steps, each to one of `breadth` children. -/
  isSome_at?_iff : ∀ path, (root.at? path).isSome ↔ path.length ≤ depth ∧ ∀ k ∈ path, k < breadth
  inner : ∀ path c, root.at? path = some c → path.length < depth → c.childCount = breadth
  last : ∀ path c, root.at? path = some c → path.length = depth → c.childCount = 0
  value : ∀ path c, root.at? path = some c → c.value = v
  length : root.length = ∑ i ∈ Finset.range (depth + 1), breadth ^ i
  /-- In a store there is nothing but the nodes of the tree. -/
  allData : root.allData = List.replicate root.length v

variable {v : α} {breadth depth : Nat} {root : Cursor α}

/-- What a path leads to in a filled tree is a filled tree. -/
theorem subtree_of_at? (h : root.subtree = .ofShape v breadth depth) {path : List Nat} {c : Cursor α}
    (hc : root.at? path = some c) :
    path.length ≤ depth ∧ c.subtree = .ofShape v breadth (depth - path.length) := by
  have hpath := root.map_subtree_at? path
  rw [hc, h, RoseTree.at?_ofShape, Option.map_some] at hpath
  split at hpath
  · rename_i hshort
    exact ⟨hshort.1, Option.some.inj hpath⟩
  · cases hpath

/-- A root of a filled tree is the root of a full tree if there is nothing besides the tree. -/
theorem isFull_of_subtree (h : root.subtree = .ofShape v breadth depth)
    (hlength : root.length = root.subtree.size) (hdata : root.allData.Perm root.subtree.preorder) :
    root.IsFull v breadth depth where
  isSome_at?_iff path := by
    have hpath := congrArg Option.isSome (root.map_subtree_at? path)
    rw [Option.isSome_map, h, RoseTree.at?_ofShape] at hpath
    rw [hpath]
    split
    · rename_i hin
      exact iff_of_true rfl hin
    · rename_i hout
      exact iff_of_false Bool.false_ne_true hout
  inner path c hc hpath := by
    obtain ⟨-, hsubtree⟩ := subtree_of_at? h hc
    obtain ⟨room, hroom⟩ : ∃ room, depth - path.length = room + 1 := Nat.exists_eq_add_one.2 (by omega)
    rw [childCount_eq, hsubtree, hroom, RoseTree.ofShape_succ, RoseTree.children, List.length_replicate]
  last path c hc hpath := by
    obtain ⟨-, hsubtree⟩ := subtree_of_at? h hc
    rw [childCount_eq, hsubtree, hpath, Nat.sub_self]
    rfl
  value path c hc := by
    obtain ⟨-, hsubtree⟩ := subtree_of_at? h hc
    rw [value_eq, hsubtree, RoseTree.value_ofShape]
  length := by rw [hlength, h, RoseTree.size_ofShape]
  allData := by
    refine List.eq_replicate_iff.2 ⟨?_, fun u hu => ?_⟩
    · rw [hdata.length_eq, hlength, RoseTree.length_preorder]
    · rw [h] at hdata
      exact RoseTree.eq_of_mem_preorder_ofShape (hdata.mem_iff.1 hu)

end Cursor

namespace Forest

variable {α : Type}

/-- The cursor at the root of a tree that has just been filled. -/
def filledRoot (form : Form) (v : α) (breadth depth : Nat) : Cursor α :=
  match form with
  | .shared => .shared (.ofShape v breadth depth) (NodeStore.ofShape v breadth depth).root
  | .owned => .owned (.ofShape v breadth depth)

theorem isFull_filledRoot (form : Form) (v : α) (breadth depth : Nat) :
    (filledRoot form v breadth depth).IsFull v breadth depth := by
  cases form with
  | shared =>
    have represents := NodeStore.represents_ofShape v breadth depth
    have hsubtree := NodeStore.subtree_eq_of_shows _ (NodeStore.ofShape v breadth depth).root represents.shows
    refine Cursor.isFull_of_subtree hsubtree ?_ ?_
    · exact represents.size_eq.trans (congrArg RoseTree.size hsubtree.symm)
    · have hwalk := (NodeStore.Built.ofShape v breadth depth).perm_collect_root .leftDepth
      rw [← NodeStore.collect_subtree] at hwalk
      exact hwalk.trans (RoseTree.perm_collect _ .leftDepth)
  | owned => exact Cursor.isFull_of_subtree rfl rfl (RoseTree.perm_collect _ .leftBreadth)

theorem cursor?_makeShape (f : Forest α) (form : Form) (v : α) (breadth depth : Nat) :
    (f.makeShape form v breadth depth).cursor? f.handles.size []
      = some (filledRoot form v breadth depth) := by
  cases form with
  | shared =>
    have hroot : 0 < (NodeStore.ofShape v breadth depth).size := (NodeStore.ofShape v breadth depth).size_pos
    have hhandle : (f.makeShape .shared v breadth depth).handleAt? f.handles.size []
        = some (.shared f.stores.size 0) :=
      handleAt?_eq_shared_iff.2 ⟨.ofShape v breadth depth, 0, Array.getElem?_push_size,
        Array.getElem?_push_size, NodeStore.descend?_nil hroot⟩
    rw [cursor?, hhandle, Option.bind_some]
    simp [cursorOf?, makeShape, addStore, filledRoot, NodeStore.root, hroot]
  | owned => simp [makeShape, addHandle, cursor?, handleAt?, cursorOf?, RoseTree.at?, filledRoot]

/-- **Full trees.** In both forms, a tree that is made by filling is full. Without breadth or without depth it
is its root alone. -/
theorem isFull_makeShape (f : Forest α) (form : Form) (v : α) (breadth depth : Nat) :
    ∃ root, (f.makeShape form v breadth depth).cursor? f.handles.size [] = some root ∧
      root.IsFull v breadth depth ∧ (breadth = 0 ∨ depth = 0 → root.length = 1) := by
  have full := isFull_filledRoot form v breadth depth
  refine ⟨filledRoot form v breadth depth, f.cursor?_makeShape form v breadth depth, full, ?_⟩
  rw [full.length]
  rintro (rfl | rfl)
  · rw [Finset.sum_range_succ', Finset.sum_eq_zero fun i _ => Nat.zero_pow (Nat.succ_pos i), Nat.zero_add,
      Nat.pow_zero]
  · rw [Nat.zero_add, Finset.sum_range_one, Nat.pow_zero]

end Forest

end FrontEnd
