import FrontEnd.Proofs.Tree.Bulk
import FrontEnd.Tree.Forest

/-! # Stores as they are built

A store is built from a single root by two kinds of steps: a node that is there gets another value, or a new
last child. The bulk operations are made of such steps, so what the steps keep holds of every store
(`NodeStore.Built.treeShaped`): every node but the root is a child of one node, at one place.
-/

namespace FrontEnd

namespace NodeStore

variable {α : Type} {s : NodeStore α}

/-- A store that has been built from a root, step by step, at nodes that were there. -/
inductive Built : NodeStore α → Prop
  | singleton (value : α) : Built (singleton value)
  | setValue {s : NodeStore α} {i : Nat} (built : Built s) (hi : i < s.size) (value : α) :
      Built (s.setValue i value)
  | addChild {s : NodeStore α} {i : Nat} (built : Built s) (hi : i < s.size) (value : α) :
      Built (s.addChild i value)

/-! ## What a step keeps -/

/-- The children of each node are in the order of their indexes. -/
def Increasing (s : NodeStore α) : Prop := ∀ i, (s.children i).Pairwise (· < ·)

/-- Every node but the root is a child. -/
def Parented (s : NodeStore α) : Prop := ∀ c, 0 < c → c < s.size → ∃ i k, s.child? i k = some c

theorem increasing_setValue (h : s.Increasing) (i : Nat) (v : α) : (s.setValue i v).Increasing := by
  intro j
  rw [children_setValue]
  exact h j

/-- The new child comes behind all others, for it has the greatest index. -/
theorem increasing_addChild (h : s.Increasing) {i : Nat} (hi : i < s.size) (v : α) :
    (s.addChild i v).Increasing := by
  intro j
  rw [children_addChild s hi]
  split
  · refine List.pairwise_append.2 ⟨h j, List.pairwise_singleton _ _, ?_⟩
    intro c hc d hd
    obtain rfl := List.mem_singleton.1 hd
    exact lt_size_of_mem_children hc
  · exact h j

theorem parented_setValue (h : s.Parented) (i : Nat) (v : α) : (s.setValue i v).Parented := by
  intro c hpos hc
  rw [size_setValue] at hc
  obtain ⟨j, k, hj⟩ := h c hpos hc
  refine ⟨j, k, ?_⟩
  rw [child?_eq_getElem?, children_setValue, ← child?_eq_getElem?, hj]

theorem parented_addChild (h : s.Parented) {i : Nat} (hi : i < s.size) (v : α) :
    (s.addChild i v).Parented := by
  intro c hpos hc
  rw [size_addChild s hi] at hc
  by_cases hnew : c = s.size
  · subst hnew
    refine ⟨i, (s.children i).length, ?_⟩
    rw [child?_eq_getElem?, children_addChild s hi, if_pos rfl, List.getElem?_concat_length]
  · obtain ⟨j, k, hj⟩ := h c hpos (by omega)
    refine ⟨j, k, ?_⟩
    rw [child?_eq_getElem?] at hj ⊢
    rw [children_addChild s hi]
    split
    · rw [List.getElem?_append_left (List.getElem?_eq_some_iff.1 hj).1, hj]
    · exact hj

/-! ## The shape of a built store -/

theorem children_singleton (v : α) (i : Nat) : (singleton v).children i = [] := by
  cases i <;> rfl

theorem Built.increasing (h : s.Built) : s.Increasing := by
  induction h with
  | singleton v =>
    intro i
    rw [children_singleton]
    exact List.Pairwise.nil
  | setValue _ _ v ih => exact increasing_setValue ih _ v
  | addChild _ hi v ih => exact increasing_addChild ih hi v

theorem Built.parented (h : s.Built) : s.Parented := by
  induction h with
  | singleton v =>
    intro c hpos hc
    exact absurd hc (Nat.not_lt_of_le hpos)
  | setValue _ _ v ih => exact parented_setValue ih _ v
  | addChild _ hi v ih => exact parented_addChild ih hi v

theorem Built.uniqueParents (h : s.Built) : s.UniqueParents := by
  induction h with
  | singleton v =>
    intro i j k l c hc _
    rw [child?_eq_getElem?, children_singleton] at hc
    cases hc
  | setValue _ _ v ih => exact uniqueParents_setValue ih _ v
  | addChild _ hi v ih => exact uniqueParents_addChild ih hi v

theorem mem_relations_iff {i : Nat} {cs : List Nat} :
    (i, cs) ∈ s.relations ↔ i < s.size ∧ cs ≠ [] ∧ cs = s.children i := by
  simp only [relations, List.mem_filter, List.mem_map, List.mem_range, decide_eq_true_eq]
  constructor
  · rintro ⟨⟨j, hj, heq⟩, hcs⟩
    cases heq
    exact ⟨hj, hcs, rfl⟩
  · rintro ⟨hi, hcs, rfl⟩
    exact ⟨⟨i, hi, rfl⟩, hcs⟩

/-- A store is a tree below its root. -/
structure TreeShaped (s : NodeStore α) : Prop where
  /-- A node in the relations has children, in the order of their indexes, and all of them lie behind it. -/
  relation : ∀ i cs, (i, cs) ∈ s.relations →
    i < s.size ∧ cs ≠ [] ∧ cs.Pairwise (· < ·) ∧ ∀ c ∈ cs, i < c ∧ c < s.size
  /-- The children of a node are the ones in the relations. -/
  child : ∀ i k c, s.child? i k = some c ↔ ∃ cs, (i, cs) ∈ s.relations ∧ cs[k]? = some c
  root : ∀ i k, s.child? i k ≠ some 0
  /-- Every other node is a child of one node, at one place. -/
  parent : ∀ c, 0 < c → c < s.size →
    ∃ i k, s.child? i k = some c ∧ ∀ j l, s.child? j l = some c → j = i ∧ l = k

/-- **A store that has been built is a tree below its root.** -/
theorem Built.treeShaped (h : s.Built) : s.TreeShaped where
  relation i cs hcs := by
    obtain ⟨hi, hne, rfl⟩ := mem_relations_iff.1 hcs
    exact ⟨hi, hne, h.increasing i, s.children_behind i⟩
  child i k c := by
    rw [child?_eq_getElem?]
    constructor
    · intro hc
      have hmem := List.mem_of_getElem? hc
      have hi : i < s.size := Nat.lt_trans (lt_of_mem_children hmem) (lt_size_of_mem_children hmem)
      exact ⟨s.children i, mem_relations_iff.2 ⟨hi, List.ne_nil_of_mem hmem, rfl⟩, hc⟩
    · rintro ⟨cs, hcs, hc⟩
      obtain ⟨-, -, rfl⟩ := mem_relations_iff.1 hcs
      exact hc
  root i k hroot := Nat.not_lt_zero i (lt_of_child? hroot)
  parent c hpos hc := by
    obtain ⟨i, k, hplace⟩ := h.parented c hpos hc
    exact ⟨i, k, hplace, fun j l hother => h.uniqueParents j i l k c hother hplace⟩

/-! ## Bulk operations are made of steps -/

mutual

theorem Built.graft : ∀ {s : NodeStore α} (t : RoseTree α) {i : Nat}, s.Built → i < s.size →
    (s.graft i t).Built
  | _, .node v ts, _, h, hi => (h.addChild hi v).graftAll ts (lt_size_addChild hi v)

theorem Built.graftAll : ∀ {s : NodeStore α} (ts : List (RoseTree α)) {i : Nat}, s.Built → i < s.size →
    (s.graftAll i ts).Built
  | _, [], _, h, _ => h
  | s, t :: ts, _, h, hi => (h.graft t hi).graftAll ts ((graftedAt_graft t s hi).lt_size hi)

end

theorem Built.edit {i : Nat} (h : s.Built) (hi : i < s.size) (e : Edit α) : (s.edit i e).Built := by
  cases e with
  | setValue v => exact h.setValue hi v
  | addChild v => exact h.addChild hi v
  | graft tree => exact h.graft tree hi

/-- What every new child of one value keeps, a fill with this value keeps. -/
theorem fill_of_addChild {P : NodeStore α → Prop} {v : α}
    (step : ∀ {s : NodeStore α} {i : Nat}, P s → i < s.size → P (s.addChild i v)) (breadth depth : Nat)
    {i : Nat} (h : P s) (hi : i < s.size) : P (s.fill v breadth depth i) := by
  induction depth generalizing s i with
  | zero => exact h
  | succ depth ih =>
    have hadded : ∀ n, P (Nat.repeat (fun s => s.addChild i v) n s) := by
      intro n
      induction n with
      | zero => exact h
      | succ n ih => exact step ih ((graftedAt_repeat_addChild hi v n).lt_size hi)
    -- A turn of the loop fills one child, which is there by then.
    refine List.foldlRecOn _ _ (hadded breadth) fun r hr k _ => ?_
    split
    · rename_i child hchild
      exact ih hr (lt_size_of_child? hchild)
    · exact hr

theorem Built.ofShape (v : α) (breadth depth : Nat) : (ofShape v breadth depth).Built :=
  fill_of_addChild (fun h hi => h.addChild hi v) breadth depth (.singleton v) Nat.zero_lt_one

end NodeStore

end FrontEnd
