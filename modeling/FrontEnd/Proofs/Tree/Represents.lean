import FrontEnd.Proofs.Tree.Bulk
import FrontEnd.Tree.Forest

/-! # Stores that represent trees

A store represents a rose tree if its root shows the tree and it holds no other nodes. Every operation on
such a store is the operation on the tree: what is made represents what is made, and an edit at the end of
a path is the edit of the tree at the end of that path.
-/

namespace FrontEnd

/-! ## Sizes -/

namespace RoseTree

variable {α : Type}

theorem sizeOfAll_set {ts : List (RoseTree α)} {k : Nat} {t : RoseTree α} (h : ts[k]? = some t)
    (u : RoseTree α) : sizeOfAll (ts.set k u) + t.size = sizeOfAll ts + u.size := by
  induction ts generalizing k with
  | nil => cases h
  | cons w ts ih =>
    cases k with
    | zero =>
      obtain rfl : w = t := by simpa using h
      simp only [List.set_cons_zero, sizeOfAll]
      omega
    | succ k =>
      have := ih (k := k) (by simpa using h)
      simp only [List.set_cons_succ, sizeOfAll]
      omega

theorem size_setValue (v : α) (t : RoseTree α) : (t.setValue v).size = t.size := by
  cases t
  rfl

theorem size_graft (new t : RoseTree α) : (graft new t).size = t.size + new.size := by
  cases t
  simp [graft, children, size, sizeOfAll_append, sizeOfAll, Nat.add_assoc]

/-- A subtree can be changed where there is one. -/
theorem modifyAt?_eq_none {change : RoseTree α → RoseTree α} {path : List Nat} {t : RoseTree α}
    (h : t.at? path = none) : t.modifyAt? change path = none := by
  induction path generalizing t with
  | nil => cases h
  | cons k path ih =>
    rw [at?, Option.bind_eq_none_iff] at h
    rw [modifyAt?, Option.bind_eq_none_iff]
    intro w hw
    rw [ih (h w hw), Option.map_none]

/-- A tree gains as many nodes as the subtree that is changed. -/
theorem size_modifyAt? {change : RoseTree α → RoseTree α} {path : List Nat} {t t' u : RoseTree α}
    (hu : t.at? path = some u) (ht' : t.modifyAt? change path = some t') :
    t'.size + u.size = t.size + (change u).size := by
  induction path generalizing t t' with
  | nil =>
    obtain rfl : t = u := by simpa [at?] using hu
    obtain rfl : change t = t' := by simpa [modifyAt?] using ht'
    exact Nat.add_comm _ _
  | cons k path ih =>
    obtain ⟨v, ts⟩ := t
    obtain ⟨w, hw, hwu⟩ := Option.bind_eq_some_iff.1 hu
    change ts[k]? = some w at hw
    simp only [modifyAt?, children, hw, Option.bind_some, Option.map_eq_some_iff] at ht'
    obtain ⟨w', hw', rfl⟩ := ht'
    have hset := sizeOfAll_set hw w'
    have hinner := ih hwu hw'
    simp only [size]
    omega

end RoseTree

/-! ## Operations on a store and on its tree -/

namespace NodeStore

variable {α : Type}

/-- The root of a store shows a tree, and the store holds the nodes of the tree and no others. -/
structure Represents (s : NodeStore α) (t : RoseTree α) : Prop where
  unique : s.UniqueParents
  shows : s.Shows 0 t
  size_eq : s.size = t.size

theorem represents_singleton (v : α) : (singleton v).Represents (.leaf v) where
  unique i j k l c h _ := by
    exfalso
    have hc := mem_children_of_child? h
    cases i <;> simp [children, childrenOf, singleton] at hc
  shows := ⟨rfl, trivial⟩
  size_eq := rfl

theorem represents_ofShape (v : α) (breadth depth : Nat) :
    (ofShape v breadth depth).Represents (.ofShape v breadth depth) := by
  have hroot := represents_singleton v
  have hfill : (singleton v).GraftedAt 0 (RoseTree.ofShape v breadth depth).children
      (ofShape v breadth depth) := graftedAt_fill v breadth depth Nat.zero_lt_one hroot.unique rfl
  have hshows := hfill.shows hroot.shows
  rw [RoseTree.eta (.ofShape v breadth depth), RoseTree.value_ofShape]
  refine ⟨hfill.unique hroot.unique, hshows, ?_⟩
  rw [hfill.size_eq, hroot.size_eq]
  rfl

namespace Represents

variable {s s' : NodeStore α} {t : RoseTree α}

/-- A change at one node is a change of the tree, if it changes the tree of that node. -/
theorem of_grownAt (h : s.Represents t) {change : RoseTree α → RoseTree α} {path : List Nat} {x : Nat}
    (hpath : s.descend? path 0 = some x) (grown : s.GrownAt x s') (unique : s'.UniqueParents)
    (hchange : ∀ u, s.Shows x u → s'.Shows x (change u) ∧ s'.size + u.size = s.size + (change u).size) :
    ∃ t', t.modifyAt? change path = some t' ∧ s'.Represents t' := by
  rcases h.shows.descend? path with ⟨hnone, -⟩ | ⟨y, u, hy, hu, hshows⟩
  · rw [hpath] at hnone
    cases hnone
  · obtain rfl : x = y := Option.some.inj (hpath.symm.trans hy)
    obtain ⟨hshows', hsize⟩ := hchange u hshows
    obtain ⟨t', ht', hroot⟩ := grown.shows_modifyAt? h.unique hpath h.shows hu hshows'
    refine ⟨t', ht', unique, hroot, ?_⟩
    have := RoseTree.size_modifyAt? hu ht'
    have := h.size_eq
    omega

/-- **An edit of a store is the edit of its tree.** -/
theorem edit (h : s.Represents t) {path : List Nat} {x : Nat} (hpath : s.descend? path 0 = some x)
    (edit : Edit α) :
    ∃ t', t.modifyAt? (fun t => t.edit edit) path = some t' ∧ (s.edit x edit).Represents t' := by
  have hx : x < s.size := lt_size_of_descend? hpath
  have hgrafted : ∀ {new : RoseTree α} {s' : NodeStore α}, s.GraftedAt x [new] s' → ∀ u, s.Shows x u →
      s'.Shows x (.graft new u) ∧ s'.size + u.size = s.size + (RoseTree.graft new u).size := by
    intro new s' hg u hu
    refine ⟨hg.shows hu, ?_⟩
    rw [hg.size_eq, RoseTree.size_graft]
    simp only [RoseTree.sizeOfAll]
    omega
  cases edit with
  | setValue v =>
    refine h.of_grownAt hpath (grownAt_setValue s x v) (uniqueParents_setValue h.unique x v) ?_
    intro u hu
    refine ⟨shows_setValue hu v, ?_⟩
    simp [RoseTree.edit, NodeStore.edit, RoseTree.size_setValue]
  | addChild v =>
    have hg := graftedAt_addChild hx v
    exact h.of_grownAt hpath hg.grown (hg.unique h.unique) (hgrafted hg)
  | graft tree =>
    have hg := graftedAt_graft tree s hx
    exact h.of_grownAt hpath hg.grown (hg.unique h.unique) (hgrafted hg)

end Represents

end NodeStore

end FrontEnd
