import FrontEnd.Proofs.Tree.Path

/-! # The tree at a node

A node of a store shows a rose tree: its values and the order of its children are those of the tree. What
is changed at one node of a store, and what is added to the store, does not touch the trees at nodes that
the changed one does not lie below. So a change at the end of a path is, for the tree at its start, a
change of one subtree.
-/

namespace FrontEnd

namespace NodeStore

variable {α : Type} {s : NodeStore α}

mutual

/-- The node at an index has the value of the root of a tree, and its children show the subtrees. -/
def Shows (s : NodeStore α) (i : Nat) : RoseTree α → Prop
  | .node value children => s.value? i = some value ∧ s.ShowsAll (s.children i) children

/-- The nodes at some indexes show the trees of a list, one by one. -/
def ShowsAll (s : NodeStore α) : List Nat → List (RoseTree α) → Prop
  | [], [] => True
  | i :: is, t :: ts => s.Shows i t ∧ s.ShowsAll is ts
  | _, _ => False

end

theorem shows_iff {i : Nat} {t : RoseTree α} :
    s.Shows i t ↔ s.value? i = some t.value ∧ s.ShowsAll (s.children i) t.children := by
  cases t
  rfl

theorem Shows.lt_size {i : Nat} {t : RoseTree α} (h : s.Shows i t) : i < s.size := by
  have hvalue := (shows_iff.1 h).1
  apply Nat.lt_of_not_le
  intro hi
  rw [value?_of_size_le hi] at hvalue
  cases hvalue

theorem ShowsAll.nil_of_nil {is : List Nat} (h : s.ShowsAll is []) : is = [] := by
  cases is with
  | nil => rfl
  | cons => exact h.elim

theorem showsAll_iff {is : List Nat} {ts : List (RoseTree α)} :
    s.ShowsAll is ts ↔
      is.length = ts.length ∧ ∀ (k i : Nat) (t : RoseTree α), is[k]? = some i → ts[k]? = some t → s.Shows i t := by
  induction is generalizing ts with
  | nil => cases ts <;> simp [ShowsAll]
  | cons i is ih =>
    cases ts with
    | nil => simp [ShowsAll]
    | cons t ts =>
      rw [ShowsAll, ih]
      constructor
      · rintro ⟨hi, hlength, his⟩
        refine ⟨by simp [hlength], ?_⟩
        rintro (_ | k) j u hj hu
        · cases hj; cases hu; exact hi
        · exact his k j u hj hu
      · rintro ⟨hlength, his⟩
        refine ⟨his 0 i t rfl rfl, by simpa using hlength, ?_⟩
        intro k j u hj hu
        exact his (k + 1) j u hj hu

theorem ShowsAll.append {is js : List Nat} {ts us : List (RoseTree α)} (his : s.ShowsAll is ts)
    (hjs : s.ShowsAll js us) : s.ShowsAll (is ++ js) (ts ++ us) := by
  induction is generalizing ts with
  | nil => cases ts with
    | nil => exact hjs
    | cons => exact his.elim
  | cons i is ih => cases ts with
    | nil => exact his.elim
    | cons t ts => exact ⟨his.1, ih his.2⟩

/-! ## The shown tree is the subtree -/

theorem map_val_childNodes (i : Fin s.size) : (s.childNodes i).map Fin.val = s.children i := by
  simp [childNodes, Function.comp_def]

theorem value?_eq_some_iff {i : Nat} (hi : i < s.size) {v : α} :
    s.value? i = some v ↔ s.value ⟨i, hi⟩ = v := by
  have hnode : s.nodes[i]? = some s.nodes[i] := Array.getElem?_eq_getElem hi
  simp [value?, value, hnode]

mutual

theorem subtree_eq_of_shows :
    ∀ (t : RoseTree α) (i : Fin s.size), s.Shows i t → s.subtree i = t
  | .node v ts, i, h => by
    rw [subtree_eq, (value?_eq_some_iff i.2).1 h.1]
    rw [map_subtree_of_showsAll ts (s.childNodes i) (by rw [map_val_childNodes]; exact h.2)]

theorem map_subtree_of_showsAll :
    ∀ (ts : List (RoseTree α)) (is : List (Fin s.size)),
      s.ShowsAll (is.map Fin.val) ts → is.map s.subtree = ts
  | [], is, h => by simpa using h.nil_of_nil
  | t :: ts, [], h => h.elim
  | t :: ts, i :: is, h => by
    rw [List.map_cons, subtree_eq_of_shows t i h.1, map_subtree_of_showsAll ts is h.2]

end

/-- Every node shows its subtree. The recursion goes to the children, which lie behind the node. -/
theorem shows_subtree (i : Fin s.size) : s.Shows i (s.subtree i) := by
  rw [subtree_eq]
  refine ⟨(value?_eq_some_iff i.2).2 rfl, showsAll_iff.2 ⟨?_, fun k c t hc ht => ?_⟩⟩
  · rw [List.length_map, ← map_val_childNodes, List.length_map]
  · rw [← map_val_childNodes, List.getElem?_map] at hc
    rw [List.getElem?_map] at ht
    obtain ⟨d, hd, rfl⟩ := Option.map_eq_some_iff.1 hc
    obtain rfl : s.subtree d = t := by simpa [hd] using ht
    have := lt_of_mem_childNodes (List.mem_of_getElem? hd)
    exact shows_subtree d
termination_by s.size - i

/-- A path ends in the store when it ends in the tree, and the node at its end shows the subtree there. -/
theorem Shows.descend? {i : Nat} {t : RoseTree α} (h : s.Shows i t) (path : List Nat) :
    (s.descend? path i = none ∧ t.at? path = none) ∨
      ∃ x u, s.descend? path i = some x ∧ t.at? path = some u ∧ s.Shows x u := by
  induction path generalizing i t with
  | nil => exact Or.inr ⟨i, t, descend?_nil h.lt_size, rfl, h⟩
  | cons k path ih =>
    obtain ⟨hlength, hchildren⟩ := showsAll_iff.1 (shows_iff.1 h).2
    rw [descend?_cons, child?_eq_getElem?, RoseTree.at?]
    by_cases hk : k < (s.children i).length
    · have hk' : k < t.children.length := hlength ▸ hk
      rw [List.getElem?_eq_getElem hk, List.getElem?_eq_getElem hk']
      exact ih (hchildren k _ _ (List.getElem?_eq_getElem hk) (List.getElem?_eq_getElem hk'))
    · have hk' : ¬ k < t.children.length := hlength ▸ hk
      left
      simp [hk, hk']

/-! ## Changes at one node -/

/-- A store grown out of another, where only one node has changed. -/
structure GrownAt (s : NodeStore α) (x : Nat) (s' : NodeStore α) : Prop where
  size_le : s.size ≤ s'.size
  value? : ∀ j < s.size, j ≠ x → s'.value? j = s.value? j
  children : ∀ j < s.size, j ≠ x → s'.children j = s.children j

namespace GrownAt

variable {r s' : NodeStore α} {x y : Nat}

theorem refl (s : NodeStore α) (x : Nat) : s.GrownAt x s :=
  ⟨Nat.le_refl _, fun _ _ _ => rfl, fun _ _ _ => rfl⟩

/-- A later change at the same node, or at a node that is new, leaves the rest of the old nodes alone. -/
theorem trans (h : s.GrownAt x r) (h' : r.GrownAt y s') (hxy : y = x ∨ s.size ≤ y) :
    s.GrownAt x s' where
  size_le := Nat.le_trans h.size_le h'.size_le
  value? j hj hjx := by
    rw [h'.value? j (Nat.lt_of_lt_of_le hj h.size_le) (by omega), h.value? j hj hjx]
  children j hj hjx := by
    rw [h'.children j (Nat.lt_of_lt_of_le hj h.size_le) (by omega), h.children j hj hjx]

/-- Below a node that the changed one does not lie below, every path ends where it did. -/
theorem descend?_eq (h : s.GrownAt x s') {i : Nat} (hi : i < s.size) (hx : ¬ s.Below i x)
    (path : List Nat) : s'.descend? path i = s.descend? path i := by
  induction path generalizing i with
  | nil => rw [descend?_nil hi, descend?_nil (Nat.lt_of_lt_of_le hi h.size_le)]
  | cons k path ih =>
    have hchildren := h.children i hi (ne_of_not_below hi hx)
    rw [descend?_cons, descend?_cons, child?_eq_getElem?, hchildren, ← child?_eq_getElem?]
    cases hc : s.child? i k with
    | none => rfl
    | some c => exact ih (lt_size_of_child? hc) fun hbelow => hx (hbelow.of_child? hc)

theorem below (h : s.GrownAt x s') {i y : Nat} (hi : i < s.size) (hx : ¬ s.Below i x)
    (hy : s'.Below i y) : s.Below i y := by
  obtain ⟨path, hpath⟩ := hy
  rw [h.descend?_eq hi hx] at hpath
  exact ⟨path, hpath⟩

theorem not_below (h : s.GrownAt x s') {i : Nat} (hi : i < s.size) (hx : ¬ s.Below i x) :
    ¬ s'.Below i x := fun hbelow => hx (h.below hi hx hbelow)

/-- A new node lies below no old one, unless it has been put below the changed node. -/
theorem not_below_new (h : s.GrownAt x s') {i y : Nat} (hi : i < s.size) (hx : ¬ s.Below i x)
    (hy : s.size ≤ y) : ¬ s'.Below i y := by
  intro hbelow
  obtain ⟨path, hpath⟩ := h.below hi hx hbelow
  exact Nat.not_le_of_lt (lt_size_of_descend? hpath) hy

mutual

/-- **The trees that the changed node does not lie in stay.** -/
theorem shows (h : s.GrownAt x s') : ∀ {t : RoseTree α} {i : Nat},
    s.Shows i t → ¬ s.Below i x → s'.Shows i t
  | .node v ts, i, hi, hx => by
    have hne := ne_of_not_below hi.lt_size hx
    refine ⟨(h.value? i hi.lt_size hne).trans hi.1, ?_⟩
    rw [h.children i hi.lt_size hne]
    exact showsAll h hi.2 fun c hc => not_below_of_mem_children hx hc

theorem showsAll (h : s.GrownAt x s') : ∀ {ts : List (RoseTree α)} {is : List Nat},
    s.ShowsAll is ts → (∀ i ∈ is, ¬ s.Below i x) → s'.ShowsAll is ts
  | [], [], _, _ => trivial
  | [], _ :: _, his, _ => his.elim
  | _ :: _, [], his, _ => his.elim
  | _ :: _, i :: _, his, hx =>
    ⟨shows h his.1 (hx i List.mem_cons_self),
      showsAll h his.2 fun j hj => hx j (List.mem_cons_of_mem i hj)⟩

end

/-- A change below one of some children of a node exchanges the tree of that child; its siblings are apart
from the change. -/
theorem showsAll_set (h : s.GrownAt x s') (unique : s.UniqueParents) {i m k c : Nat} {is : List Nat}
    {ts : List (RoseTree α)} {t' : RoseTree α} (hplaces : ∀ l, s.child? i (m + l) = is[l]?)
    (his : s.ShowsAll is ts) (hc : is[k]? = some c) (hx : s.Below c x) (ht' : s'.Shows c t') :
    s'.ShowsAll is (ts.set k t') := by
  obtain ⟨hlength, hshows⟩ := showsAll_iff.1 his
  have hk : k < ts.length := hlength ▸ (List.getElem?_eq_some_iff.1 hc).1
  refine showsAll_iff.2 ⟨by simp [hlength], fun l d u hd hu => ?_⟩
  by_cases hkl : k = l
  · subst hkl
    obtain rfl : c = d := Option.some.inj (hc.symm.trans hd)
    obtain rfl : t' = u := by simpa [List.getElem?_set_self hk] using hu
    exact ht'
  · rw [List.getElem?_set_ne hkl] at hu
    have hapart : ¬ s.Below d x :=
      unique.not_below_sibling ((hplaces k).trans hc) ((hplaces l).trans hd) (by omega) hx
    exact h.shows (hshows l d u hd hu) hapart

/-- **A change at the end of a path is a change of one subtree.** Where the changed node comes to show the
changed subtree, the node at the start of the path comes to show the tree with that subtree changed. -/
theorem shows_modifyAt? (h : s.GrownAt x s') (unique : s.UniqueParents)
    {change : RoseTree α → RoseTree α} {path : List Nat} {i : Nat} {t u : RoseTree α}
    (hpath : s.descend? path i = some x) (hi : s.Shows i t) (hu : t.at? path = some u)
    (hx : s'.Shows x (change u)) : ∃ t', t.modifyAt? change path = some t' ∧ s'.Shows i t' := by
  induction path generalizing i t with
  | nil =>
    obtain rfl : i = x := by simpa [descend?_nil hi.lt_size] using hpath
    obtain rfl : t = u := by simpa [RoseTree.at?] using hu
    exact ⟨change t, rfl, hx⟩
  | cons k path ih =>
    obtain ⟨v, ts⟩ := t
    rw [descend?_cons] at hpath
    obtain ⟨c, hc, hcx⟩ := Option.bind_eq_some_iff.1 hpath
    obtain ⟨tc, htc, htu⟩ := Option.bind_eq_some_iff.1 hu
    change ts[k]? = some tc at htc
    have hck : (s.children i)[k]? = some c := by rw [← child?_eq_getElem?]; exact hc
    have htc_shows : s.Shows c tc := (showsAll_iff.1 hi.2).2 k c tc hck htc
    obtain ⟨tc', htc', hshows⟩ := ih hcx htc_shows htu
    refine ⟨.node v (ts.set k tc'), ?_, ?_⟩
    · simp [RoseTree.modifyAt?, RoseTree.children, RoseTree.value, htc, htc']
    have hne : i ≠ x := Nat.ne_of_lt (Nat.lt_of_lt_of_le (lt_of_child? hc) (le_of_descend? hcx))
    refine ⟨(h.value? i hi.lt_size hne).trans hi.1, ?_⟩
    rw [h.children i hi.lt_size hne]
    have hplaces : ∀ l, s.child? i (0 + l) = (s.children i)[l]? := by
      intro l
      rw [Nat.zero_add, child?_eq_getElem?]
    exact h.showsAll_set unique hplaces hi.2 hck ⟨path, hcx⟩ hshows

end GrownAt

end NodeStore

end FrontEnd
