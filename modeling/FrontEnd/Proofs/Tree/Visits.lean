import FrontEnd.Proofs.Tree.Reached

/-! # Walks, round by round

A walk marks no node that it has visited. Still it takes no node twice out of the queue, for the nodes that
wait are at any time the roots of trees that are apart: a node that is taken hands its place over to its
children, whose trees are apart too and part of its own. So a walk takes what lies below the nodes that wait
at its start, each node once, and the number of rounds is the number of these nodes. From the root of a store
that is reached these are all nodes of the store (`Forest.Reached.walks_take_once`).
-/

namespace FrontEnd

/-- The children of a node join the ones that wait, in whatever order. -/
theorem Order.perm_put {ν : Type} (order : Order) (children : List ν) (waiting : Queue ν) :
    (order.put children waiting).toList.Perm (children ++ waiting.toList) := by
  have harrange : (order.arrange children).Perm children := by
    unfold Order.arrange
    split
    · exact .refl children
    · exact children.reverse_perm
  rw [toList_put]
  split
  · exact harrange.append_right _
  · exact List.perm_append_comm.trans (harrange.append_right _)

namespace Nodes

variable {ν α : Type} (nodes : Nodes ν α) {order : Order}

/-- A walk takes some nodes out of the queue, one in each round, until none is left. -/
inductive Takes (order : Order) : Queue ν → List ν → Prop
  | stop {waiting : Queue ν} (empty : waiting.next? = none) : Takes order waiting []
  | round {waiting rest : Queue ν} {n : ν} {taken : List ν} (next : waiting.next? = some (n, rest))
      (takes : Takes order (order.put (nodes.children n) rest) taken) : Takes order waiting (n :: taken)

/-- Every walk ends. -/
theorem exists_takes (order : Order) (waiting : Queue ν) : ∃ taken, nodes.Takes order waiting taken := by
  fun_induction nodes.walk order waiting with
  | case1 waiting hnext => exact ⟨[], .stop hnext⟩
  | case2 waiting n rest hnext _ ih =>
    obtain ⟨taken, htakes⟩ := ih
    exact ⟨n :: taken, .round hnext htakes⟩

namespace Takes

variable {nodes} {waiting : Queue ν} {taken : List ν}

/-- The result of a walk is the values of the nodes that it takes. -/
theorem walk_eq (h : nodes.Takes order waiting taken) :
    nodes.walk order waiting = taken.map nodes.value := by
  induction h with
  | stop hnext => exact nodes.walk_of_toList_eq_nil order (Queue.next?_eq_none_iff.1 hnext)
  | round hnext _ ih => rw [nodes.walk_of_next? order hnext, ih, List.map_cons]

/-- Where a node weighs one more than its children, there are as many rounds as the queue weighs. -/
theorem length_eq (h : nodes.Takes order waiting taken)
    (weight : ∀ n, nodes.weight n = total nodes.weight (nodes.children n) + 1) :
    taken.length = total nodes.weight waiting.toList := by
  induction h with
  | stop hnext => rw [Queue.next?_eq_none_iff.1 hnext, List.length_nil, total]
  | round hnext _ ih =>
    rw [Queue.toList_of_next? hnext, List.length_cons, ih, Order.total_put, total, weight]
    omega

end Takes

/-- A relation tells which nodes lie below a node, the node itself with them. What lies below one of its
children is neither the node nor below another child. -/
structure Apart (Under : ν → ν → Prop) : Prop where
  iff : ∀ n x, Under n x ↔ x = n ∨ ∃ c ∈ nodes.children n, Under c x
  above : ∀ n, ∀ c ∈ nodes.children n, ¬ Under c n
  siblings : ∀ n, (nodes.children n).Pairwise fun c d => ∀ x, Under c x → ¬ Under d x

namespace Takes

variable {nodes} {waiting : Queue ν} {taken : List ν} {Under : ν → ν → Prop}

/-- A walk takes the nodes below the ones that wait. -/
theorem mem_iff (h : nodes.Takes order waiting taken) (apart : nodes.Apart Under) (x : ν) :
    x ∈ taken ↔ ∃ n ∈ waiting.toList, Under n x := by
  induction h with
  | stop hnext => simp [Queue.next?_eq_none_iff.1 hnext]
  | @round waiting rest n taken hnext _ ih =>
    have hput : (∃ m ∈ (order.put (nodes.children n) rest).toList, Under m x) ↔
        (∃ c ∈ nodes.children n, Under c x) ∨ ∃ m ∈ rest.toList, Under m x := by
      simp only [(order.perm_put (nodes.children n) rest).mem_iff, List.mem_append, or_and_right,
        exists_or]
    have hfirst : (∃ m ∈ waiting.toList, Under m x) ↔ Under n x ∨ ∃ m ∈ rest.toList, Under m x := by
      simp [Queue.toList_of_next? hnext]
    rw [List.mem_cons, ih, hput, hfirst, apart.iff n, or_assoc]

/-- **A walk takes no node twice.** The trees of the nodes that wait are apart at the start of each round:
the children of the node that is taken lie below it, so their trees are apart from those of the others. -/
theorem nodup (h : nodes.Takes order waiting taken) (apart : nodes.Apart Under)
    (waits : waiting.toList.Pairwise fun m n => ∀ x, Under m x → ¬ Under n x) : taken.Nodup := by
  induction h with
  | stop => exact List.nodup_nil
  | @round waiting rest n taken hnext htakes ih =>
    rw [Queue.toList_of_next? hnext, List.pairwise_cons] at waits
    obtain ⟨hothers, hrest⟩ := waits
    have hbelow : ∀ c ∈ nodes.children n, ∀ x, Under c x → Under n x :=
      fun c hc x hx => (apart.iff n x).2 (.inr ⟨c, hc, hx⟩)
    have hself : Under n n := (apart.iff n n).2 (.inl rfl)
    have hjoined : (nodes.children n ++ rest.toList).Pairwise fun m n => ∀ x, Under m x → ¬ Under n x :=
      List.pairwise_append.2 ⟨apart.siblings n, hrest,
        fun c hc m hm x hx => hothers m hm x (hbelow c hc x hx)⟩
    have hwaits := (order.perm_put (nodes.children n) rest).symm.pairwise hjoined
      fun h x hd hc => h x hc hd
    refine List.nodup_cons.2 ⟨?_, ih hwaits⟩
    rw [htakes.mem_iff apart]
    rintro ⟨m, hm, hn⟩
    rcases List.mem_append.1 ((order.perm_put _ rest).mem_iff.1 hm) with hm | hm
    · exact apart.above n m hm hn
    · exact hothers m hm n hself hn

end Takes

/-- A walk gives the values below the nodes that wait as any other order of the tree does: the induction is
on the walk, and the children come in where their parent was. -/
theorem perm_walk {below : ν → List α}
    (hbelow : ∀ n, below n = nodes.value n :: (nodes.children n).flatMap below) (order : Order)
    (waiting : Queue ν) : (nodes.walk order waiting).Perm (waiting.toList.flatMap below) := by
  fun_induction nodes.walk order waiting with
  | case1 waiting hnext => rw [Queue.next?_eq_none_iff.1 hnext, List.flatMap_nil]
  | case2 waiting n rest hnext hlist ih =>
    have hput := (order.perm_put (nodes.children n) rest).flatMap_right below
    rw [List.flatMap_append] at hput
    rw [hlist, List.flatMap_cons, hbelow, List.cons_append]
    exact (ih.trans hput).cons _

end Nodes

/-! ## Stores -/

namespace NodeStore

variable {α : Type} {s : NodeStore α}

theorem below_iff {i : Nat} (hi : i < s.size) (x : Nat) :
    s.Below i x ↔ x = i ∨ ∃ c ∈ s.children i, s.Below c x := by
  constructor
  · rintro ⟨path, hpath⟩
    cases path with
    | nil =>
      rw [descend?_nil hi] at hpath
      exact .inl (Option.some.inj hpath).symm
    | cons k path =>
      rw [descend?_cons] at hpath
      obtain ⟨c, hc, hx⟩ := Option.bind_eq_some_iff.1 hpath
      exact .inr ⟨c, mem_children_of_child? hc, path, hx⟩
  · rintro (rfl | ⟨c, hc, hx⟩)
    · exact .refl hi
    · exact hx.of_mem_children hc

/-- Every node lies below the root, for it is a child of a node in front of it. -/
theorem Parented.below_root (parented : s.Parented) {x : Nat} (hx : x < s.size) : s.Below 0 x := by
  induction x using Nat.strongRecOn with
  | ind x ih =>
    rcases Nat.eq_zero_or_pos x with rfl | hpos
    · exact .refl hx
    · obtain ⟨i, k, hk⟩ := parented x hpos hx
      have hlt := lt_of_child? hk
      obtain ⟨path, hpath⟩ := ih i hlt (Nat.lt_trans hlt hx)
      exact ⟨path ++ [k], by rw [descend?_concat, hpath, Option.bind_some, hk]⟩

theorem mem_childNodes_iff {i c : Fin s.size} : c ∈ s.childNodes i ↔ c.val ∈ s.children i := by
  rw [← map_val_childNodes, List.mem_map]
  constructor
  · exact fun h => ⟨c, h, rfl⟩
  · rintro ⟨d, hd, hdc⟩
    rwa [← Fin.ext hdc]

/-- The trees of the nodes of a built store are apart. -/
theorem Built.apart (built : s.Built) : s.walkable.Apart fun i x => s.Below i x where
  iff i x := by
    rw [below_iff i.2, Fin.ext_iff]
    refine or_congr_right ⟨?_, ?_⟩
    · rintro ⟨c, hc, hx⟩
      exact ⟨⟨c, lt_size_of_mem_children hc⟩, mem_childNodes_iff.2 hc, hx⟩
    · rintro ⟨c, hc, hx⟩
      exact ⟨c, mem_childNodes_iff.1 hc, hx⟩
  above i c hc := not_below_of_lt (lt_of_mem_childNodes hc)
  siblings i := by
    have hplace : ∀ k (hk : k < (s.childNodes i).length), s.child? i k = some (s.childNodes i)[k].val := by
      intro k hk
      rw [child?_eq_getElem?, ← map_val_childNodes, List.getElem?_map, List.getElem?_eq_getElem hk,
        Option.map_some]
    refine List.pairwise_iff_getElem.2 fun k l hk hl hkl x hx => ?_
    exact built.uniqueParents.not_below_sibling (hplace k hk) (hplace l hl) (Nat.ne_of_lt hkl) hx

/-- A node weighs one more than its children. -/
theorem weight_walkable (i : Fin s.size) :
    s.walkable.weight i = total s.walkable.weight (s.walkable.children i) + 1 := by
  change (s.subtree i).size = total (fun c => (s.subtree c).size) (s.childNodes i) + 1
  rw [RoseTree.size_eq, children_subtree, RoseTree.sizeOfAll_eq_total, total_map, Nat.add_comm]

theorem allData_eq_map (s : NodeStore α) : s.allData = (List.finRange s.size).map s.value := by
  apply List.ext_getElem?
  intro k
  rw [getElem?_allData, List.getElem?_map]
  rcases Nat.lt_or_ge k s.size with hk | hk
  · rw [(value?_eq_some_iff hk).2 rfl, List.getElem?_eq_getElem (by rwa [List.length_finRange]),
      List.getElem_finRange]
    rfl
  · rw [List.getElem?_eq_none (by rwa [List.length_finRange]), value?_of_size_le hk, Option.map_none]

section Taken

variable {order : Order} {i : Fin s.size} {taken : List (Fin s.size)}

theorem Built.mem_taken_iff (built : s.Built) (h : s.walkable.Takes order (.ofList [i]) taken)
    (x : Fin s.size) : x ∈ taken ↔ s.Below i x := by
  rw [h.mem_iff built.apart, Queue.toList_ofList]
  simp

theorem Built.nodup_taken (built : s.Built) (h : s.walkable.Takes order (.ofList [i]) taken) :
    taken.Nodup := h.nodup built.apart (List.pairwise_singleton _ i)

/-- From the root every node is taken. -/
theorem Built.perm_taken_root (built : s.Built)
    (h : s.walkable.Takes order (.ofList [s.root]) taken) : taken.Perm (List.finRange s.size) := by
  refine (List.perm_ext_iff_of_nodup (built.nodup_taken h) (List.nodup_finRange s.size)).2 fun x => ?_
  rw [built.mem_taken_iff h]
  exact iff_of_true (built.parented.below_root x.2) (List.mem_finRange x)

theorem Built.perm_collect_root (built : s.Built) (order : Order) :
    s.allData.Perm (s.collect order s.root) := by
  obtain ⟨taken, htakes⟩ := s.walkable.exists_takes order (.ofList [s.root])
  rw [allData_eq_map, collect, Nodes.collect, htakes.walk_eq]
  exact (built.perm_taken_root htakes).symm.map s.value

end Taken

/-- What the walks of a store take, and how its values lie. -/
structure TakenOnce (s : NodeStore α) : Prop where
  /-- From every node each walk ends. -/
  ends : ∀ order i, ∃ taken, s.walkable.Takes order (.ofList [i]) taken
  /-- Its result is the values of the nodes that it takes. -/
  values : ∀ order i taken, s.walkable.Takes order (.ofList [i]) taken →
    s.collect order i = taken.map s.value
  /-- It takes the nodes below the node, and each of them once. -/
  once : ∀ order i taken, s.walkable.Takes order (.ofList [i]) taken →
    taken.Nodup ∧ ∀ x, x ∈ taken ↔ s.Below i x
  /-- There are as many rounds as the subtree has nodes. -/
  rounds : ∀ order i taken, s.walkable.Takes order (.ofList [i]) taken →
    taken.length = (s.subtree i).size
  /-- From the root each walk takes every node of the store. -/
  root : ∀ order taken, s.walkable.Takes order (.ofList [s.root]) taken →
    taken.Perm (List.finRange s.size)
  allData : ∀ order, s.allData.Perm (s.collect order s.root)
  length : ∀ order, (Cursor.shared s s.root).length = (s.collect order s.root).length
  /-- The entry of a node in all values is its value. -/
  entry : ∀ i : Fin s.size, s.allData[i.val]? = some (s.value i)
  /-- Every child comes behind its parent. -/
  parent : ∀ i, ∀ c ∈ s.children i, i < c ∧ c < s.allData.length
  /-- Children come in their order. -/
  siblings : ∀ i, (s.children i).Pairwise (· < ·)

theorem Built.takenOnce (built : s.Built) : s.TakenOnce where
  ends order i := s.walkable.exists_takes order (.ofList [i])
  values _ _ _ htakes := htakes.walk_eq
  once _ _ _ htakes := ⟨built.nodup_taken htakes, fun x => built.mem_taken_iff htakes x⟩
  rounds order i taken htakes := by
    rw [htakes.length_eq weight_walkable, Queue.toList_ofList, total, total, Nat.add_zero]
    rfl
  root _ _ htakes := built.perm_taken_root htakes
  allData order := built.perm_collect_root order
  length order := by
    rw [← (built.perm_collect_root order).length_eq, length_allData]
    rfl
  entry i := by rw [getElem?_allData, (value?_eq_some_iff i.2).2 rfl]
  parent i c hc := by
    rw [length_allData]
    exact s.children_behind i c hc
  siblings := built.increasing

end NodeStore

/-! ## Owned trees -/

namespace RoseTree

variable {α : Type}

theorem preorderAll_eq_flatMap (ts : List (RoseTree α)) : preorderAll ts = ts.flatMap preorder := by
  induction ts with
  | nil => rfl
  | cons t ts ih => rw [preorderAll, List.flatMap_cons, ih]

theorem perm_collect (t : RoseTree α) (order : Order) : (t.collect order).Perm t.preorder := by
  have hpreorder : ∀ u : RoseTree α, u.preorder = nodes.value u :: (nodes.children u).flatMap preorder := by
    rintro ⟨v, us⟩
    rw [preorder, preorderAll_eq_flatMap]
    rfl
  simpa [collect, Nodes.collect] using nodes.perm_walk hpreorder order (.ofList [t])

theorem length_collect (t : RoseTree α) (order : Order) : (t.collect order).length = t.size := by
  obtain ⟨taken, htakes⟩ := (nodes : Nodes (RoseTree α) α).exists_takes order (.ofList [t])
  have hweight : ∀ u : RoseTree α, nodes.weight u = total nodes.weight (nodes.children u) + 1 := by
    intro u
    change u.size = total size u.children + 1
    rw [size_eq, sizeOfAll_eq_total, Nat.add_comm]
  rw [collect, Nodes.collect, htakes.walk_eq, List.length_map, htakes.length_eq hweight]
  rfl

/-- The lengths and the values that a tree gives in its several ways are the same, up to the order. -/
structure CountedAlike (t : RoseTree α) : Prop where
  allData : (Cursor.owned t).length = (Cursor.owned t).allData.length
  collect : ∀ order, (Cursor.owned t).length = (t.collect order).length
  perm : ∀ order order', (t.collect order).Perm (t.collect order')

theorem countedAlike (t : RoseTree α) : t.CountedAlike where
  allData := (t.length_collect .leftBreadth).symm
  collect order := (t.length_collect order).symm
  perm order order' := (t.perm_collect order).trans (t.perm_collect order').symm

end RoseTree

namespace Forest

variable {α : Type} {f : Forest α} {blank : α}

/-- **A walk takes every node once.** In a store that is reached, each walk from any node takes the nodes
below it, each of them once, and from the root all nodes of the store; the values of the store list parents
before children and siblings in their order. An owned tree has as many nodes as each of its walks has
values, and all of them give the same values. -/
theorem Reached.walks_take_once (reached : f.Reached blank) :
    (∀ (k : Nat) (s : NodeStore α), f.stores[k]? = some s → s.TakenOnce) ∧
      ∀ t : RoseTree α, t.CountedAlike :=
  ⟨fun k s hs => (reached.sound.built k s hs).takenOnce, RoseTree.countedAlike⟩

theorem Reached.walks_take_once_sample :
    (Reached.sampleHanded sampleStore).Reached 0 ∧
      (∀ (k : Nat) (s : NodeStore Nat), (Reached.sampleHanded sampleStore).stores[k]? = some s →
        s.TakenOnce) ∧ ∀ t : RoseTree Nat, t.CountedAlike :=
  ⟨reached_sampleHanded, walks_take_once reached_sampleHanded⟩

end Forest

end FrontEnd
