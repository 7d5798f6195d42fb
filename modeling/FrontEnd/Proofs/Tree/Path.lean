import FrontEnd.Tree.Store

/-! # Paths in a store

A path of child indexes leads from a node down to another, and indexes grow on the way. If no node is a
child twice, a path is known by its two ends, so the subtrees of two children of a node are apart.
-/

namespace FrontEnd

namespace NodeStore

variable {α : Type} {s : NodeStore α}

/-- No node is a child of two nodes, or of one node at two places. -/
def UniqueParents (s : NodeStore α) : Prop :=
  ∀ i j k l c, s.child? i k = some c → s.child? j l = some c → i = j ∧ k = l

/-- A node lies in the subtree of another. -/
def Below (s : NodeStore α) (i x : Nat) : Prop := ∃ path, s.descend? path i = some x

theorem lt_size_of_child? {i k c : Nat} (h : s.child? i k = some c) : c < s.size :=
  lt_size_of_mem_children (mem_children_of_child? h)

theorem children_of_size_le {i : Nat} (h : s.size ≤ i) : s.children i = [] := by
  have : s.nodes[i]? = none := Array.getElem?_eq_none h
  simp [children, childrenOf, this]

theorem value?_of_size_le {i : Nat} (h : s.size ≤ i) : s.value? i = none := by
  have : s.nodes[i]? = none := Array.getElem?_eq_none h
  simp [value?, this]

/-! ## Ends of paths -/

theorem descend?_nil {i : Nat} (h : i < s.size) : s.descend? [] i = some i := by
  simp [descend?, h]

theorem descend?_cons (k : Nat) (path : List Nat) (i : Nat) :
    s.descend? (k :: path) i = (s.child? i k).bind (s.descend? path) := by
  rw [descend?, child?_eq_getElem?]

theorem descend?_singleton {i k c : Nat} (h : s.child? i k = some c) : s.descend? [k] i = some c := by
  rw [descend?_cons, h]
  exact descend?_nil (lt_size_of_child? h)

theorem descend?_append (p q : List Nat) (i : Nat) :
    s.descend? (p ++ q) i = (s.descend? p i).bind (s.descend? q) := by
  induction p generalizing i with
  | nil =>
    by_cases hi : i < s.size
    · simp [descend?_nil hi]
    · -- No path leaves an index outside the store.
      have hnone : s.descend? q i = none := by
        cases q with
        | nil => simp [descend?, hi]
        | cons k q => simp [descend?, children_of_size_le (Nat.le_of_not_lt hi)]
      simp [descend?, hi, hnone]
  | cons k p ih =>
    rw [List.cons_append, descend?_cons, descend?_cons]
    cases s.child? i k with
    | none => rfl
    | some c => exact ih c

theorem descend?_concat (p : List Nat) (k i : Nat) :
    s.descend? (p ++ [k]) i = (s.descend? p i).bind fun j => s.child? j k := by
  rw [descend?_append]
  congr 1
  funext j
  cases h : s.child? j k with
  | none => rw [descend?_cons, h]; rfl
  | some c => exact descend?_singleton h

theorem le_of_descend? {path : List Nat} {i x : Nat} (h : s.descend? path i = some x) : i ≤ x := by
  induction path generalizing i with
  | nil =>
    obtain ⟨-, rfl⟩ : i < s.size ∧ i = x := by simpa [descend?] using h
    exact Nat.le_refl i
  | cons k path ih =>
    rw [descend?_cons] at h
    obtain ⟨c, hc, hx⟩ := Option.bind_eq_some_iff.1 h
    exact Nat.le_trans (Nat.le_of_lt (lt_of_child? hc)) (ih hx)

theorem lt_size_of_descend? {path : List Nat} {i x : Nat} (h : s.descend? path i = some x) :
    x < s.size := by
  induction path generalizing i with
  | nil =>
    obtain ⟨hi, rfl⟩ : i < s.size ∧ i = x := by simpa [descend?] using h
    exact hi
  | cons k path ih =>
    rw [descend?_cons] at h
    obtain ⟨c, -, hx⟩ := Option.bind_eq_some_iff.1 h
    exact ih hx

/-! ## Subtrees that are apart -/

theorem Below.refl {i : Nat} (h : i < s.size) : s.Below i i := ⟨[], descend?_nil h⟩

theorem Below.of_child? {i k c x : Nat} (hc : s.child? i k = some c) (h : s.Below c x) :
    s.Below i x := by
  obtain ⟨path, hpath⟩ := h
  exact ⟨k :: path, by rw [descend?_cons, hc]; exact hpath⟩

theorem Below.of_mem_children {i c x : Nat} (hc : c ∈ s.children i) (h : s.Below c x) :
    s.Below i x := by
  obtain ⟨k, hk⟩ := List.getElem?_of_mem hc
  rw [← child?_eq_getElem?] at hk
  exact h.of_child? hk

theorem not_below_of_mem_children {i c x : Nat} (h : ¬ s.Below i x) (hc : c ∈ s.children i) :
    ¬ s.Below c x := fun hbelow => h (hbelow.of_mem_children hc)

theorem not_below_of_lt {i x : Nat} (h : x < i) : ¬ s.Below i x := by
  rintro ⟨path, hpath⟩
  exact Nat.not_le_of_lt h (le_of_descend? hpath)

theorem ne_of_not_below {i x : Nat} (hi : i < s.size) (h : ¬ s.Below i x) : i ≠ x := by
  rintro rfl
  exact h (.refl hi)

/-- **Two paths from one node to one node are the same.** The induction takes the paths from their ends,
where the parents have to agree. -/
theorem descend?_injective (unique : s.UniqueParents) {p q : List Nat} {i x : Nat}
    (hp : s.descend? p i = some x) (hq : s.descend? q i = some x) : p = q := by
  -- A path that ends where it starts is empty, for every step goes to a greater index.
  have hback : ∀ (r : List Nat) (k : Nat), s.descend? (r ++ [k]) i ≠ some i := by
    intro r k h
    rw [descend?_concat] at h
    obtain ⟨j, hj, hc⟩ := Option.bind_eq_some_iff.1 h
    exact Nat.not_le_of_lt (lt_of_child? hc) (le_of_descend? hj)
  have hroot : ∀ y, s.descend? [] i = some y → y = i := by
    intro y h
    have hy : i < s.size ∧ i = y := by simpa [descend?] using h
    exact hy.2.symm
  have hreverse : ∀ (p q : List Nat) (x : Nat), s.descend? p.reverse i = some x →
      s.descend? q.reverse i = some x → p = q := by
    intro p
    induction p with
    | nil =>
      intro q x hp hq
      cases q with
      | nil => rfl
      | cons l q =>
        rw [hroot x hp, List.reverse_cons] at hq
        exact absurd hq (hback q.reverse l)
    | cons k p ih =>
      intro q x hp hq
      cases q with
      | nil =>
        rw [hroot x hq, List.reverse_cons] at hp
        exact absurd hp (hback p.reverse k)
      | cons l q =>
        rw [List.reverse_cons, descend?_concat] at hp hq
        obtain ⟨a, ha, hxa⟩ := Option.bind_eq_some_iff.1 hp
        obtain ⟨b, hb, hxb⟩ := Option.bind_eq_some_iff.1 hq
        obtain ⟨rfl, rfl⟩ := unique a b k l x hxa hxb
        rw [ih q a ha hb]
  rw [← List.reverse_reverse p] at hp
  rw [← List.reverse_reverse q] at hq
  exact List.reverse_inj.1 (hreverse p.reverse q.reverse x hp hq)

/-- What lies below one child of a node does not lie below another. -/
theorem UniqueParents.not_below_sibling (unique : s.UniqueParents) {i k l c d x : Nat}
    (hc : s.child? i k = some c) (hd : s.child? i l = some d) (hkl : k ≠ l) (hx : s.Below c x) :
    ¬ s.Below d x := by
  rintro ⟨q, hq⟩
  obtain ⟨p, hp⟩ := hx
  have hpaths : k :: p = l :: q := by
    apply descend?_injective unique (i := i) (x := x)
    · rw [descend?_cons, hc]; exact hp
    · rw [descend?_cons, hd]; exact hq
  exact hkl (List.cons.inj hpaths).1

end NodeStore

end FrontEnd
