import FrontEnd.Proofs.Tree.Represents
import FrontEnd.Proofs.Tree.View

/-! # The two forms of a tree agree

The same operations are run on two forests, one with every tree in a store of its own, one with every tree
owned by its handle. Each step keeps every store representing the owned tree under the same handle, so no
path and no answer ever tells the forms apart (`Forest.runs_alike`).
-/

namespace FrontEnd

/-- An operation on trees, which are numbered as they are made. -/
inductive Step (α : Type) where
  | make
  | makeShape (breadth depth : Nat)
  | setValue (tree : Nat) (path : List Nat) (value : α)
  | addChild (tree : Nat) (path : List Nat) (value : α)
  /-- Copies the tree below a node of the source under a node of the target. -/
  | copy (source : Nat) (node : List Nat) (target : Nat) (path : List Nat)

/-- A copy within one tree does not go below the node that is copied. -/
def Step.Apart {α : Type} : Step α → Prop
  | .copy source node target path => source = target → ¬ node <+: path
  | _ => True

instance {α : Type} : (step : Step α) → Decidable step.Apart
  | .copy source node target path => inferInstanceAs (Decidable (source = target → ¬ node <+: path))
  | .make => isTrue trivial
  | .makeShape _ _ => isTrue trivial
  | .setValue _ _ _ => isTrue trivial
  | .addChild _ _ _ => isTrue trivial

namespace Forest

variable {α : Type}

/-- The forest after a step that makes trees of one form. A step at a place that does not exist changes
nothing. There is no result if a copy never ends. -/
def perform? (form : Form) (blank : α) (f : Forest α) : Step α → Option (Forest α)
  | .make => some (f.make form blank)
  | .makeShape breadth depth => some (f.makeShape form blank breadth depth)
  | .setValue tree path value => some ((f.edit? tree path (.setValue value)).getD f)
  | .addChild tree path value => some ((f.edit? tree path (.addChild value)).getD f)
  | .copy source node target path =>
    match f.handleAt? source node, f.handleAt? target path with
    | some handle, some _ => f.copy? handle target path
    | _, _ => some f

/-- Two forests with as many trees, where each store of the first represents the owned tree of the second
under the same handle. -/
structure Twin (f g : Forest α) : Prop where
  stores_eq : f.stores.size = f.handles.size
  handles_eq : f.handles.size = g.handles.size
  pair : ∀ h < f.handles.size, ∃ s t, f.handles[h]? = some (.shared h 0) ∧ f.stores[h]? = some s ∧
    g.handles[h]? = some (.owned t) ∧ s.Represents t

namespace Twin

variable {f g : Forest α}

theorem empty : Twin ({} : Forest α) {} := ⟨rfl, rfl, fun h hh => absurd hh (Nat.not_lt_zero h)⟩

/-- A handle is in neither forest, or there is a store under it in one and its tree in the other. -/
theorem none_or_pair (twin : Twin f g) (h : Nat) :
    (f.handles[h]? = none ∧ g.handles[h]? = none) ∨ ∃ s t, f.handles[h]? = some (.shared h 0) ∧
      f.stores[h]? = some s ∧ g.handles[h]? = some (.owned t) ∧ s.Represents t := by
  rcases Nat.lt_or_ge h f.handles.size with hh | hh
  · exact Or.inr (twin.pair h hh)
  · exact Or.inl ⟨Array.getElem?_eq_none hh, Array.getElem?_eq_none (twin.handles_eq ▸ hh)⟩

theorem add (twin : Twin f g) {s : NodeStore α} {t : RoseTree α} (hst : s.Represents t) :
    Twin (f.addStore s) (g.addHandle (.owned t)) where
  stores_eq := by simp [addStore, twin.stores_eq]
  handles_eq := by simp [addStore, addHandle, twin.handles_eq]
  pair h hh := by
    have hstores := twin.stores_eq
    have hhandles := twin.handles_eq
    simp only [addStore, addHandle, Array.size_push, Array.getElem?_push] at hh ⊢
    by_cases hnew : h = f.handles.size
    · refine ⟨s, t, ?_, ?_, ?_, hst⟩
      · rw [if_pos hnew, hnew, hstores]
      · rw [if_pos (by omega)]
      · rw [if_pos (by omega)]
    · obtain ⟨s', t', hf, hs, hg, hst'⟩ := twin.pair h (by omega)
      refine ⟨s', t', ?_, ?_, ?_, hst'⟩
      · rw [if_neg hnew, hf]
      · rw [if_neg (by omega), hs]
      · rw [if_neg (by omega), hg]

theorem set (twin : Twin f g) {tree : Nat} {s : NodeStore α} {t : RoseTree α} (hst : s.Represents t) :
    Twin { f with stores := f.stores.setIfInBounds tree s }
      { g with handles := g.handles.setIfInBounds tree (.owned t) } where
  stores_eq := by simpa using twin.stores_eq
  handles_eq := by simpa using twin.handles_eq
  pair h hh := by
    have hstores := twin.stores_eq
    have hhandles := twin.handles_eq
    have hh : h < f.handles.size := hh
    obtain ⟨s', t', hf, hs, hg, hst'⟩ := twin.pair h hh
    simp only [Array.getElem?_setIfInBounds]
    by_cases htree : tree = h
    · refine ⟨s, t, hf, ?_, ?_, hst⟩
      · rw [if_pos htree, if_pos (by omega)]
      · rw [if_pos htree, if_pos (by omega)]
    · refine ⟨s', t', hf, ?_, ?_, hst'⟩
      · rw [if_neg htree, hs]
      · rw [if_neg htree, hg]

end Twin

/-- A place in two forests: in one a node of the store under a handle, in the other the subtree that this
node shows, at the end of the same path in the tree that the store represents. -/
structure Place (f g : Forest α) (tree : Nat) (path : List Nat) (s : NodeStore α) (t : RoseTree α)
    (x : Nat) (u : RoseTree α) : Prop where
  shared : f.handles[tree]? = some (.shared tree 0)
  store : f.stores[tree]? = some s
  owned : g.handles[tree]? = some (.owned t)
  represents : s.Represents t
  node : s.descend? path 0 = some x
  subtree : t.at? path = some u
  shows : s.Shows x u

namespace Place

variable {f g : Forest α} {tree : Nat} {path : List Nat} {s : NodeStore α} {t u : RoseTree α} {x : Nat}

theorem handleAt?_left (h : Place f g tree path s t x u) :
    f.handleAt? tree path = some (.shared tree x) := by
  simp [handleAt?, h.shared, h.store, h.node]

theorem handleAt?_right (h : Place f g tree path s t x u) :
    g.handleAt? tree path = some (.owned u) := by
  simp [handleAt?, h.owned, h.subtree]

theorem cursorOf?_left (h : Place f g tree path s t x u) :
    f.cursorOf? (.shared tree x) = some (.shared s ⟨x, h.shows.lt_size⟩) := by
  simp [cursorOf?, h.store, h.shows.lt_size]

theorem edit?_left (h : Place f g tree path s t x u) (edit : Edit α) :
    f.edit? tree path edit
      = some { f with stores := f.stores.setIfInBounds tree (s.edit x edit) } := by
  simp [edit?, h.shared, h.store, h.node]

/-- An edit at a place is made in both forests, and they stay twins. -/
theorem edit? (h : Place f g tree path s t x u) (twin : Twin f g) (edit : Edit α) :
    ∃ f' g', f.edit? tree path edit = some f' ∧ g.edit? tree path edit = some g' ∧ Twin f' g' := by
  obtain ⟨t', ht', hrepresents⟩ := h.represents.edit h.node edit
  refine ⟨_, _, h.edit?_left edit, ?_, twin.set hrepresents⟩
  simp [Forest.edit?, h.owned, ht']

end Place

/-- A path from a handle leads nowhere in both of two twins, or to a place. -/
theorem Twin.none_or_place {f g : Forest α} (twin : Twin f g) (tree : Nat) (path : List Nat) :
    (f.handleAt? tree path = none ∧ g.handleAt? tree path = none ∧
      ∀ edit, f.edit? tree path edit = none ∧ g.edit? tree path edit = none) ∨
    ∃ s t x u, Place f g tree path s t x u := by
  rcases twin.none_or_pair tree with ⟨hf, hg⟩ | ⟨s, t, hf, hs, hg, hst⟩
  · left
    simp [handleAt?, edit?, hf, hg]
  · rcases hst.shows.descend? path with ⟨hx, hu⟩ | ⟨x, u, hx, hu, hshows⟩
    · left
      simp [handleAt?, edit?, hf, hg, hs, hx, hu, RoseTree.modifyAt?_eq_none hu]
    · exact Or.inr ⟨s, t, x, u, hf, hs, hg, hst, hx, hu, hshows⟩

/-! ## Steps keep twins -/

section Steps

variable {f g : Forest α} {form : Form} {blank : α}

/-- **A copy is an edit.** In a store that the copy is made within, the target does not lie below the
source, for the paths to the two would show it. -/
theorem Place.copy?_left {source target : Nat} {node path : List Nat} {s₁ s₂ : NodeStore α}
    {t₁ t₂ u₁ u₂ : RoseTree α} {x y : Nat} (h₁ : Place f g source node s₁ t₁ x u₁)
    (h₂ : Place f g target path s₂ t₂ y u₂) (apart : source = target → ¬ node <+: path) :
    f.copy? (.shared source x) target path = f.edit? target path (.graft u₁) := by
  simp only [copy?, h₂.handleAt?_left]
  split
  · rename_i hsame
    subst hsame
    obtain rfl : s₁ = s₂ := Option.some.inj (h₁.store.symm.trans h₂.store)
    have hapart : ¬ s₁.Below x y := by
      rintro ⟨q, hq⟩
      have hpath : s₁.descend? (node ++ q) 0 = some y := by
        rw [NodeStore.descend?_append, h₁.node]
        exact hq
      exact apart rfl ⟨q, NodeStore.descend?_injective h₁.represents.unique hpath h₂.node⟩
    rw [h₂.edit?_left, h₂.store]
    simp [NodeStore.copyWithin?_eq_graft h₁.shows h₂.shows.lt_size hapart, NodeStore.edit]
  · have hsubtree := NodeStore.subtree_eq_of_shows u₁ ⟨x, h₁.shows.lt_size⟩ h₁.shows
    simp only [h₁.cursorOf?_left, Option.bind_some, Cursor.subtree, hsubtree]

/-- Each step ends in both of two twins, and they stay twins. -/
theorem Twin.perform? (twin : Twin f g) (blank : α) {step : Step α} (apart : step.Apart) :
    ∃ f' g', f.perform? .shared blank step = some f' ∧ g.perform? .owned blank step = some g' ∧
      Twin f' g' := by
  -- An edit changes nothing in both where it has no place.
  have hedit : ∀ tree path edit,
      Twin ((f.edit? tree path edit).getD f) ((g.edit? tree path edit).getD g) := by
    intro tree path edit
    rcases twin.none_or_place tree path with ⟨-, -, hnone⟩ | ⟨s, t, x, u, hplace⟩
    · rw [(hnone edit).1, (hnone edit).2]
      exact twin
    · obtain ⟨f', g', hf, hg, htwin⟩ := hplace.edit? twin edit
      rw [hf, hg]
      exact htwin
  cases step with
  | make => exact ⟨_, _, rfl, rfl, twin.add (NodeStore.represents_singleton blank)⟩
  | makeShape breadth depth =>
    exact ⟨_, _, rfl, rfl, twin.add (NodeStore.represents_ofShape blank breadth depth)⟩
  | setValue tree path value => exact ⟨_, _, rfl, rfl, hedit tree path (.setValue value)⟩
  | addChild tree path value => exact ⟨_, _, rfl, rfl, hedit tree path (.addChild value)⟩
  | copy source node target path =>
    rcases twin.none_or_place source node with ⟨hf, hg, -⟩ | ⟨s₁, t₁, x, u₁, h₁⟩
    · exact ⟨f, g, by simp [Forest.perform?, hf], by simp [Forest.perform?, hg], twin⟩
    · rcases twin.none_or_place target path with ⟨hf, hg, -⟩ | ⟨s₂, t₂, y, u₂, h₂⟩
      · exact ⟨f, g, by simp [Forest.perform?, hf], by simp [Forest.perform?, hg], twin⟩
      · obtain ⟨f', g', hf, hg, htwin⟩ := h₂.edit? twin (.graft u₁)
        refine ⟨f', g', ?_, ?_, htwin⟩
        · rw [← hf, ← h₁.copy?_left h₂ apart]
          simp [Forest.perform?, h₁.handleAt?_left, h₂.handleAt?_left]
        · simp [Forest.perform?, h₁.handleAt?_right, h₂.handleAt?_right, copy?, cursorOf?,
            Cursor.subtree, hg]

end Steps

/-! ## Answers -/

/-- In two twins a path ends in one if it ends in the other, and the cursors at its end give the same
answers. -/
theorem Twin.cursor? {f g : Forest α} (twin : Twin f g) (tree : Nat) (path : List Nat) :
    ((f.cursor? tree path).isSome ↔ (g.cursor? tree path).isSome) ∧
      ∀ c d, f.cursor? tree path = some c → g.cursor? tree path = some d →
        c.Alike d ∧ (path = [] → c.length = d.length) := by
  rcases twin.none_or_place tree path with ⟨hf, hg, -⟩ | ⟨s, t, x, u, hplace⟩
  · simp [Forest.cursor?, hf, hg]
  · have hc : f.cursor? tree path = some (.shared s ⟨x, hplace.shows.lt_size⟩) := by
      rw [Forest.cursor?, hplace.handleAt?_left, Option.bind_some, hplace.cursorOf?_left]
    have hd : g.cursor? tree path = some (.owned u) := by
      rw [Forest.cursor?, hplace.handleAt?_right, Option.bind_some, cursorOf?]
    refine ⟨by simp [hc, hd], fun c d hc' hd' => ?_⟩
    obtain rfl := Option.some.inj (hc.symm.trans hc')
    obtain rfl := Option.some.inj (hd.symm.trans hd')
    refine ⟨Cursor.alike_of_subtree_eq (NodeStore.subtree_eq_of_shows u _ hplace.shows), ?_⟩
    rintro rfl
    obtain rfl : t = u := by simpa [RoseTree.at?] using hplace.subtree
    exact hplace.represents.size_eq

/-- Steps with a copy within a tree and one between two trees. -/
def sampleSteps : List (Step Nat) := [
  .makeShape 2 1, .setValue 0 [1] 7, .addChild 0 [0] 8, .copy 0 [0] 0 [1], .make, .copy 0 [] 1 []]

end Forest

end FrontEnd
