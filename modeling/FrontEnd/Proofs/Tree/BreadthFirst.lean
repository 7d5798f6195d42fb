import FrontEnd.Proofs.Tree.View

/-! # Breadth-first walks

The queue of a breadth-first walk holds the rest of one level and behind it the part of the next level that
has been found already. So a walk of a whole level is the values of the level and then the walk of the next
one. If the children of each node are put in from the right, then from a level that is read from the right
the next one comes out read from the right too: a node further right puts its children in first, and each
puts in its own from the right. Hence a breadth-first walk is the values of all levels, one after another,
each read from its side (`Cursor.collect_breadth_first`).
-/

namespace FrontEnd

namespace RoseTree

variable {α : Type}

mutual

/-- The number of levels of a tree. -/
def height : RoseTree α → Nat
  | .node _ children => heightOfAll children + 1

/-- The number of levels of the highest of some trees. -/
def heightOfAll : List (RoseTree α) → Nat
  | [] => 0
  | t :: ts => max t.height (heightOfAll ts)

end

theorem height_eq (t : RoseTree α) : t.height = heightOfAll t.children + 1 := by
  cases t
  rfl

theorem heightOfAll_le_iff {ts : List (RoseTree α)} {d : Nat} :
    heightOfAll ts ≤ d ↔ ∀ t ∈ ts, t.height ≤ d := by
  induction ts with
  | nil => simp [heightOfAll]
  | cons t ts ih => rw [heightOfAll, Nat.max_le, ih, List.forall_mem_cons]

end RoseTree

namespace Nodes

variable {ν α : Type} (nodes : Nodes ν α) {order : Order}

/-- The nodes at a depth below a node, from the left to the right. -/
def level : (depth : Nat) → ν → List ν
  | 0, n => [n]
  | depth + 1, n => (nodes.children n).flatMap (level depth)

/-- The nodes of the next level are the children of those of a level. -/
theorem level_succ (d : Nat) (n : ν) :
    nodes.level (d + 1) n = (nodes.level d n).flatMap nodes.children := by
  induction d generalizing n with
  | zero => simp [level]
  | succ d ih =>
    rw [level, level, List.flatMap_assoc]
    congr 1
    funext m
    exact ih m

/-- While the first nodes of the queue are visited, their children gather behind all that waits. -/
theorem walk_ofList_append (breadth : order.isDepth = false) (level found : List ν) :
    nodes.walk order (.ofList (level ++ found))
      = level.map nodes.value
        ++ nodes.walk order (.ofList (found ++ level.flatMap fun n => order.arrange (nodes.children n))) := by
  induction level generalizing found with
  | nil => simp
  | cons n level ih =>
    have hput : nodes.walk order (order.put (nodes.children n) (.ofList (level ++ found)))
        = nodes.walk order (.ofList (level ++ (found ++ order.arrange (nodes.children n)))) := by
      apply nodes.walk_congr
      simp [Order.toList_put, breadth]
    rw [List.cons_append, nodes.walk_of_toList_eq_cons order (Queue.toList_ofList _), hput, ih]
    simp

/-- From a level that is read from its side, the next one is found as it is read from that side. -/
theorem flatMap_arrange_level (order : Order) (d : Nat) (n : ν) :
    (order.arrange (nodes.level d n)).flatMap (fun m => order.arrange (nodes.children m))
      = order.arrange (nodes.level (d + 1) n) := by
  rw [level_succ]
  unfold Order.arrange
  split
  · rfl
  · rw [List.reverse_flatMap]
    rfl

/-- The walk of a level is the values of some levels from there on, and the walk of the level behind them. -/
theorem walk_level (breadth : order.isDepth = false) (n : ν) (d k : Nat) :
    nodes.walk order (.ofList (order.arrange (nodes.level d n)))
      = (List.range' d k).flatMap (fun e => (order.arrange (nodes.level e n)).map nodes.value)
        ++ nodes.walk order (.ofList (order.arrange (nodes.level (d + k) n))) := by
  induction k generalizing d with
  | zero => rfl
  | succ k ih =>
    have hstep := nodes.walk_ofList_append breadth (order.arrange (nodes.level d n)) []
    rw [List.append_nil, List.nil_append, flatMap_arrange_level, ih (d + 1)] at hstep
    rw [hstep, List.range'_succ, List.flatMap_cons, List.append_assoc, Nat.add_right_comm, Nat.add_assoc]

/-- A breadth-first walk is the values of the levels, as many of them as there are. -/
theorem collect_of_level_eq_nil (breadth : order.isDepth = false) {n : ν} {height : Nat}
    (h : nodes.level height n = []) :
    nodes.collect order n
      = (List.range height).flatMap fun d => (order.arrange (nodes.level d n)).map nodes.value := by
  have harrange : ∀ m : ν, order.arrange [m] = [m] := by
    intro m
    unfold Order.arrange
    split <;> rfl
  have hnil : order.arrange (nodes.level height n) = [] := by
    rw [h]
    unfold Order.arrange
    split <;> rfl
  have hwalk := nodes.walk_level breadth n 0 height
  rw [level, harrange, Nat.zero_add, hnil,
    nodes.walk_of_toList_eq_nil order (Queue.toList_ofList []), List.append_nil] at hwalk
  rw [collect, hwalk, List.range_eq_range']

end Nodes

namespace Cursor

variable {α : Type}

/-- The cursors at the nodes at a depth below a cursor, from the left to the right. -/
def level (depth : Nat) (c : Cursor α) : List (Cursor α) := nodes.level depth c

/-- A level holds the nodes at the ends of all paths of one length. -/
theorem mem_level_iff {d : Nat} {c e : Cursor α} :
    e ∈ c.level d ↔ ∃ path, path.length = d ∧ c.at? path = some e := by
  induction d generalizing c with
  | zero =>
    have hself : e ∈ c.level 0 ↔ c = e := by
      rw [eq_comm]
      exact List.mem_singleton
    rw [hself]
    constructor
    · rintro rfl
      exact ⟨[], rfl, rfl⟩
    · rintro ⟨path, hlength, hpath⟩
      obtain rfl := List.length_eq_zero_iff.1 hlength
      exact Option.some.inj hpath
  | succ d ih =>
    have hchildren : e ∈ c.level (d + 1) ↔ ∃ child ∈ c.children, e ∈ child.level d :=
      List.mem_flatMap
    rw [hchildren]
    constructor
    · rintro ⟨child, hchild, he⟩
      obtain ⟨path, rfl, hpath⟩ := ih.1 he
      obtain ⟨k, hk⟩ := List.getElem?_of_mem hchild
      refine ⟨k :: path, rfl, ?_⟩
      rw [at?, child?, hk]
      exact hpath
    · rintro ⟨path, hlength, hpath⟩
      cases path with
      | nil => cases hlength
      | cons k path =>
        obtain ⟨child, hk, he⟩ := Option.bind_eq_some_iff.1 hpath
        exact ⟨child, List.mem_of_getElem? hk, ih.2 ⟨path, Nat.succ.inj hlength, he⟩⟩

/-- There are as many levels as the tree is high. -/
theorem level_eq_nil_iff {d : Nat} {c : Cursor α} : c.level d = [] ↔ c.subtree.height ≤ d := by
  induction d generalizing c with
  | zero =>
    rw [RoseTree.height_eq]
    constructor
    · intro h
      cases h
    · intro h
      omega
  | succ d ih =>
    have hchildren : c.level (d + 1) = [] ↔ ∀ child ∈ c.children, child.level d = [] :=
      List.flatMap_eq_nil_iff
    rw [hchildren, RoseTree.height_eq, Nat.add_le_add_iff_right, RoseTree.heightOfAll_le_iff,
      ← map_subtree_children, List.forall_mem_map]
    constructor
    · intro h child hchild
      exact ih.1 (h child hchild)
    · intro h child hchild
      exact ih.2 (h child hchild)

/-- **A breadth-first walk is the tree level by level.** In both forms and from every node, the walk from the
left is the values of the nodes at the depths 0, 1, 2 and so on, each level read from the left to the right,
and the walk from the right is the values of the same levels, each read from the right to the left. A level
holds the nodes at the ends of all paths of its length, and there are as many as the tree is high. -/
theorem collect_breadth_first (c : Cursor α) :
    c.collect .leftBreadth = (List.range c.subtree.height).flatMap (fun d => (c.level d).map value) ∧
      c.collect .rightBreadth
        = (List.range c.subtree.height).flatMap (fun d => ((c.level d).map value).reverse) ∧
      (∀ d, c.level d = [] ↔ c.subtree.height ≤ d) ∧
      ∀ d e, e ∈ c.level d ↔ ∃ path, path.length = d ∧ c.at? path = some e := by
  have hempty : nodes.level c.subtree.height c = [] := level_eq_nil_iff.2 (Nat.le_refl _)
  refine ⟨?_, ?_, fun d => level_eq_nil_iff, fun d e => mem_level_iff⟩
  · rw [collect_eq_nodes]
    exact nodes.collect_of_level_eq_nil rfl hempty
  · rw [collect_eq_nodes, nodes.collect_of_level_eq_nil rfl hempty]
    congr 1
    funext d
    exact List.map_reverse

end Cursor

end FrontEnd
