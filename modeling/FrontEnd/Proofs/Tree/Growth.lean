import FrontEnd.Proofs.Tree.Shown

/-! # How a store grows

Every operation that adds nodes below a node of a store comes to the same: the node gets new last children,
which are new nodes and show some trees, and no other old node changes. One new child is a tree of one
node, a graft is one tree, and the nodes added when a tree is filled are the ones of its shape. A copy made
within a store is a graft of the tree that its source shows, since the reads of the source never meet the
writes below the target.
-/

namespace FrontEnd

namespace NodeStore

variable {α : Type} {s : NodeStore α}

/-! ## One step -/

theorem grownAt_setValue (s : NodeStore α) (i : Nat) (v : α) : s.GrownAt i (s.setValue i v) where
  size_le := by simp
  value? j _ hne := by simp [value?_setValue, hne]
  children j _ _ := by simp

theorem uniqueParents_setValue (unique : s.UniqueParents) (i : Nat) (v : α) :
    (s.setValue i v).UniqueParents := by
  intro a b k l c ha hb
  rw [child?_eq_getElem?, children_setValue, ← child?_eq_getElem?] at ha hb
  exact unique a b k l c ha hb

theorem shows_setValue {i : Nat} {t : RoseTree α} (h : s.Shows i t) (v : α) :
    (s.setValue i v).Shows i (t.setValue v) := by
  refine ⟨by simp [value?_setValue, h.lt_size], ?_⟩
  rw [children_setValue]
  exact (grownAt_setValue s i v).showsAll (shows_iff.1 h).2 fun c hc =>
    not_below_of_lt (lt_of_mem_children hc)

theorem lt_size_addChild {i : Nat} (hi : i < s.size) (v : α) : s.size < (s.addChild i v).size := by
  rw [size_addChild s hi]
  exact Nat.lt_succ_self s.size

theorem grownAt_addChild {i : Nat} (hi : i < s.size) (v : α) : s.GrownAt i (s.addChild i v) where
  size_le := Nat.le_of_lt (lt_size_addChild hi v)
  value? j hj _ := by rw [value?_addChild s hi, if_neg (by omega)]
  children j _ hne := by rw [children_addChild s hi, if_neg hne]

theorem child?_addChild {i j k c : Nat} (hi : i < s.size) (v : α)
    (h : (s.addChild i v).child? j k = some c) :
    s.child? j k = some c ∨ j = i ∧ k = (s.children i).length ∧ c = s.size := by
  rw [child?_eq_getElem?, children_addChild s hi] at h
  rw [child?_eq_getElem?]
  split at h
  · rename_i hji
    subst hji
    rcases Nat.lt_or_ge k (s.children j).length with hk | hk
    · rw [List.getElem?_append_left hk] at h
      exact Or.inl h
    · rw [List.getElem?_append_right hk] at h
      obtain ⟨hk', hc⟩ : k - (s.children j).length = 0 ∧ s.size = c := by
        simpa [List.getElem?_singleton] using h
      exact Or.inr ⟨rfl, by omega, hc.symm⟩
  · exact Or.inl h

theorem uniqueParents_addChild (unique : s.UniqueParents) {i : Nat} (hi : i < s.size) (v : α) :
    (s.addChild i v).UniqueParents := by
  intro a b k l c ha hb
  -- The new node is beyond all old children, so both places are old or both are the new one.
  rcases child?_addChild hi v ha with ha' | ⟨rfl, rfl, hca⟩ <;>
    rcases child?_addChild hi v hb with hb' | ⟨rfl, rfl, hcb⟩
  · exact unique a b k l c ha' hb'
  · have := lt_size_of_child? ha'
    omega
  · have := lt_size_of_child? hb'
    omega
  · exact ⟨rfl, rfl⟩

/-! ## New last children -/

/-- A store grown out of another, where one node has got new last children that are new nodes and show the
trees of a list. -/
structure GraftedAt (s : NodeStore α) (i : Nat) (ts : List (RoseTree α)) (s' : NodeStore α) : Prop where
  grown : s.GrownAt i s'
  unique : s.UniqueParents → s'.UniqueParents
  size_eq : s'.size = s.size + RoseTree.sizeOfAll ts
  value?_eq : s'.value? i = s.value? i
  added : ∃ is, s'.children i = s.children i ++ is ∧ s'.ShowsAll is ts ∧ ∀ c ∈ is, s.size ≤ c

namespace GraftedAt

variable {r s' : NodeStore α} {i : Nat} {t : RoseTree α} {ts us : List (RoseTree α)}

theorem refl (s : NodeStore α) (i : Nat) : s.GraftedAt i [] s where
  grown := .refl s i
  unique := id
  size_eq := rfl
  value?_eq := rfl
  added := ⟨[], by simp, trivial, by simp⟩

theorem lt_size (h : s.GraftedAt i ts s') (hi : i < s.size) : i < s'.size :=
  Nat.lt_of_lt_of_le hi h.grown.size_le

/-- More children behind new children are new children. -/
theorem trans (h : s.GraftedAt i ts r) (h' : r.GraftedAt i us s') : s.GraftedAt i (ts ++ us) s' where
  grown := h.grown.trans h'.grown (Or.inl rfl)
  unique unique := h'.unique (h.unique unique)
  size_eq := by rw [h'.size_eq, h.size_eq, RoseTree.sizeOfAll_append, Nat.add_assoc]
  value?_eq := h'.value?_eq.trans h.value?_eq
  added := by
    obtain ⟨is, his, hshows, hnew⟩ := h.added
    obtain ⟨js, hjs, hshows', hnew'⟩ := h'.added
    have hkept : s'.ShowsAll is ts := by
      refine h'.grown.showsAll hshows fun c hc => not_below_of_lt ?_
      exact lt_of_mem_children (by rw [his]; exact List.mem_append_right _ hc)
    refine ⟨is ++ js, by rw [hjs, his, List.append_assoc], hkept.append hshows', fun c hc => ?_⟩
    rcases List.mem_append.1 hc with hc | hc
    · exact hnew c hc
    · exact Nat.le_trans h.grown.size_le (hnew' c hc)

/-- A new child with new children of its own is one new tree. -/
theorem under (hi : i < s.size) (v : α) (h : (s.addChild i v).GraftedAt s.size ts s') :
    s.GraftedAt i [.node v ts] s' where
  grown := (grownAt_addChild hi v).trans h.grown (Or.inr (Nat.le_refl _))
  unique unique := h.unique (uniqueParents_addChild unique hi v)
  size_eq := by
    rw [h.size_eq, size_addChild s hi]
    simp [RoseTree.sizeOfAll, RoseTree.size, Nat.add_assoc]
  value?_eq := by
    rw [h.grown.value? i (Nat.lt_trans hi (lt_size_addChild hi v)) (Nat.ne_of_lt hi),
      value?_addChild s hi, if_neg (Nat.ne_of_lt hi)]
  added := by
    refine ⟨[s.size], ?_, ⟨⟨?_, ?_⟩, trivial⟩, by simp⟩
    · rw [h.grown.children i (Nat.lt_trans hi (lt_size_addChild hi v)) (Nat.ne_of_lt hi),
        children_addChild s hi, if_pos rfl]
    · rw [h.value?_eq, value?_addChild s hi, if_pos rfl]
    · obtain ⟨is, his, hshows, -⟩ := h.added
      have hleaf : (s.addChild i v).children s.size = [] := by
        rw [children_addChild s hi, if_neg (by omega), children_of_size_le (Nat.le_refl _)]
      rw [his, hleaf]
      exact hshows

/-- A node with new last children shows its tree with those trees as new last subtrees. -/
theorem shows (h : s.GraftedAt i ts s') (ht : s.Shows i t) :
    s'.Shows i (.node t.value (t.children ++ ts)) := by
  obtain ⟨hvalue, hchildren⟩ := shows_iff.1 ht
  obtain ⟨is, his, hshows, -⟩ := h.added
  refine ⟨h.value?_eq.trans hvalue, ?_⟩
  rw [his]
  refine (h.grown.showsAll hchildren fun c hc => ?_).append hshows
  exact not_below_of_lt (lt_of_mem_children hc)

/-- The new children show their trees in their places. -/
theorem exists_child (h : s.GraftedAt i (ts ++ t :: us) s') :
    ∃ c, s'.child? i ((s.children i).length + ts.length) = some c ∧ s'.Shows c t := by
  obtain ⟨is, his, hshows, -⟩ := h.added
  obtain ⟨hlength, hshown⟩ := showsAll_iff.1 hshows
  have hk : ts.length < is.length := by simp [hlength]
  refine ⟨is[ts.length], ?_, hshown ts.length _ t (List.getElem?_eq_getElem hk) (by simp)⟩
  rw [child?_eq_getElem?, his, List.getElem?_append_right (by omega)]
  simp [hk]

/-- New children below a new child become part of the tree of that child. -/
theorem trans_child {vs : List (RoseTree α)} {c : Nat} (hi : i < s.size)
    (unique : s.UniqueParents) (h : s.GraftedAt i (ts ++ t :: us) r)
    (hc : r.child? i ((s.children i).length + ts.length) = some c) (h' : r.GraftedAt c vs s') :
    s.GraftedAt i (ts ++ .node t.value (t.children ++ vs) :: us) s' := by
  obtain ⟨is, his, hshows, hnew⟩ := h.added
  have hplace : ∀ k, r.child? i ((s.children i).length + k) = is[k]? := by
    intro k
    rw [child?_eq_getElem?, his, List.getElem?_append_right (by omega)]
    simp
  have hck : is[ts.length]? = some c := (hplace ts.length).symm.trans hc
  have hir : i < r.size := h.lt_size hi
  have hne : i ≠ c := Nat.ne_of_lt (lt_of_child? hc)
  refine {
    grown := h.grown.trans h'.grown (Or.inr (hnew c (List.mem_of_getElem? hck)))
    unique := fun unique => h'.unique (h.unique unique)
    size_eq := ?_
    value?_eq := (h'.grown.value? i hir hne).trans h.value?_eq
    added := ⟨is, (h'.grown.children i hir hne).trans his, ?_, hnew⟩ }
  · rw [h'.size_eq, h.size_eq]
    obtain ⟨v, children⟩ := t
    simp only [RoseTree.sizeOfAll_append, RoseTree.sizeOfAll, RoseTree.size, RoseTree.children]
    omega
  · have hset : ts ++ .node t.value (t.children ++ vs) :: us
        = (ts ++ t :: us).set ts.length (.node t.value (t.children ++ vs)) := by simp
    rw [hset]
    have hct : r.Shows c t := (showsAll_iff.1 hshows).2 ts.length c t hck (by simp)
    exact h'.grown.showsAll_set (h.unique unique) hplace hshows hck (.refl hct.lt_size) (h'.shows hct)

end GraftedAt

/-- A new child is a new tree of one node. -/
theorem graftedAt_addChild {i : Nat} (hi : i < s.size) (v : α) :
    s.GraftedAt i [.leaf v] (s.addChild i v) :=
  .under hi v (.refl (s.addChild i v) s.size)

mutual

/-- A graft adds one tree. -/
theorem graftedAt_graft : ∀ (t : RoseTree α) (s : NodeStore α) {i : Nat}, i < s.size →
    s.GraftedAt i [t] (s.graft i t)
  | .node v ts, s, i, hi =>
    .under hi v (graftedAt_graftAll ts (s.addChild i v) (lt_size_addChild hi v))

theorem graftedAt_graftAll : ∀ (ts : List (RoseTree α)) (s : NodeStore α) {i : Nat}, i < s.size →
    s.GraftedAt i ts (s.graftAll i ts)
  | [], s, i, _ => .refl s i
  | t :: ts, s, i, hi => by
    have hgraft := graftedAt_graft t s hi
    exact hgraft.trans (graftedAt_graftAll ts (s.graft i t) (hgraft.lt_size hi))

end

end NodeStore

end FrontEnd
