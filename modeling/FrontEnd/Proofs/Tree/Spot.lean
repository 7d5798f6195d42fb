import FrontEnd.Proofs.Tree.Represents

/-! # Spots

A spot says where a node of a forest is, whichever form its tree has: at an index of a store, or at the end
of a path in a tree that a handle owns. What is done through a handle is done at a spot. An edit at a spot
changes the trees at this spot and at those above it, and no others (`Forest.subtreeAt?_editAt?_of_not_within`).
-/

namespace FrontEnd

/-! ## Subtrees of an owned tree -/

namespace RoseTree

variable {α : Type}

theorem at?_append (p q : List Nat) (t : RoseTree α) : t.at? (p ++ q) = (t.at? p).bind (at? q) := by
  induction p generalizing t with
  | nil => rfl
  | cons k p ih =>
    rw [List.cons_append, at?, at?]
    cases t.children[k]? with
    | none => rfl
    | some c => exact ih c

theorem at?_singleton (k : Nat) (t : RoseTree α) : t.at? [k] = t.children[k]? := by
  rw [at?]
  cases t.children[k]? <;> rfl

/-- A subtree that is there can be changed, and then the changed one is there. -/
theorem exists_modifyAt? (change : RoseTree α → RoseTree α) {path : List Nat} {t u : RoseTree α}
    (h : t.at? path = some u) :
    ∃ t', t.modifyAt? change path = some t' ∧ t'.at? path = some (change u) := by
  induction path generalizing t with
  | nil =>
    obtain rfl : t = u := by simpa [at?] using h
    exact ⟨change t, rfl, rfl⟩
  | cons k path ih =>
    obtain ⟨c, hc, hu⟩ := Option.bind_eq_some_iff.1 h
    obtain ⟨c', hc', hu'⟩ := ih hu
    have hk : k < t.children.length := (List.getElem?_eq_some_iff.1 hc).1
    refine ⟨.node t.value (t.children.set k c'), by simp [modifyAt?, hc, hc'], ?_⟩
    rw [at?, children, List.getElem?_set_self hk]
    exact hu'

/-- A change that keeps the children of a node in their places keeps every subtree that it is not made in. -/
theorem at?_modifyAt?_of_not_isPrefix {change : RoseTree α → RoseTree α}
    (keeps : ∀ u : RoseTree α, u.children <+: (change u).children) {p q : List Nat} {t t' v : RoseTree α}
    (ht' : t.modifyAt? change p = some t') (hv : t.at? q = some v) (apart : ¬ q <+: p) :
    t'.at? q = some v := by
  induction p generalizing t t' q with
  | nil =>
    obtain rfl : change t = t' := by simpa [modifyAt?] using ht'
    cases q with
    | nil => exact absurd List.nil_prefix apart
    | cons l q =>
      obtain ⟨c, hc, hcv⟩ := Option.bind_eq_some_iff.1 hv
      obtain ⟨hl, rfl⟩ := List.getElem?_eq_some_iff.1 hc
      rw [at?, List.prefix_iff_getElem?.1 (keeps t) l hl]
      exact hcv
  | cons k p ih =>
    obtain ⟨c, hc, hchild⟩ := Option.bind_eq_some_iff.1 ht'
    obtain ⟨c', hc', rfl⟩ := Option.map_eq_some_iff.1 hchild
    cases q with
    | nil => exact absurd List.nil_prefix apart
    | cons l q =>
      obtain ⟨d, hd, hdv⟩ := Option.bind_eq_some_iff.1 hv
      rw [at?, children]
      by_cases hkl : k = l
      · subst hkl
        obtain rfl : c = d := Option.some.inj (hc.symm.trans hd)
        have hk : k < t.children.length := (List.getElem?_eq_some_iff.1 hc).1
        rw [List.getElem?_set_self hk]
        exact ih hc' hdv fun h => apart (List.cons_prefix_cons.2 ⟨rfl, h⟩)
      · rw [List.getElem?_set_ne hkl, hd]
        exact hdv

theorem isPrefix_children_edit (e : Edit α) (t : RoseTree α) : t.children <+: (t.edit e).children := by
  cases e with
  | setValue v => exact List.prefix_rfl
  | addChild v => exact List.prefix_append _ _
  | graft tree => exact List.prefix_append _ _

end RoseTree

/-! ## Spots of a forest -/

/-- Where a node of a forest is. -/
inductive Spot where
  /-- At an index of a store. -/
  | slot (store index : Nat)
  /-- At the end of a path in the tree that a handle owns. -/
  | branch (handle : Nat) (path : List Nat)

namespace Forest

variable {α : Type}

/-- The tree that a handle owns. -/
def treeOf? (f : Forest α) (h : Nat) : Option (RoseTree α) :=
  match f.handles[h]? with
  | some (.owned tree) => some tree
  | _ => none

/-- The cursor at a spot. -/
def cursorAt? (f : Forest α) : Spot → Option (Cursor α)
  | .slot store i => f.cursorOf? (.shared store i)
  | .branch h path => (f.treeOf? h).bind fun tree => (tree.at? path).map .owned

/-- The tree at a spot. -/
def subtreeAt? (f : Forest α) (x : Spot) : Option (RoseTree α) := (f.cursorAt? x).map Cursor.subtree

/-- The spot of a child. -/
def childAt? (f : Forest α) : Spot → (k : Nat) → Option Spot
  | .slot store i, k => f.stores[store]?.bind fun s => (s.child? i k).map (.slot store)
  | .branch h path, k => (f.cursorAt? (.branch h (path ++ [k]))).map fun _ => .branch h (path ++ [k])

/-- The forest after an edit at a spot. -/
def editAt? (f : Forest α) (e : Edit α) : Spot → Option (Forest α)
  | .slot store i =>
    f.stores[store]?.bind fun s =>
      if i < s.size then some { f with stores := f.stores.setIfInBounds store (s.edit i e) } else none
  | .branch h path =>
    (f.treeOf? h).bind fun tree =>
      (tree.modifyAt? (fun t => t.edit e) path).map fun changed =>
        { f with handles := f.handles.setIfInBounds h (.owned changed) }

/-- The spot at the end of a path from a handle. -/
def spot? (f : Forest α) (h : Nat) (path : List Nat) : Option Spot :=
  match f.handles[h]? with
  | some (.shared store node) => f.stores[store]?.bind fun s => (s.descend? path node).map (.slot store)
  | some (.owned tree) => (tree.at? path).map fun _ => .branch h path
  | none => none

/-- A spot lies in the tree at another: it is this one, or lies below it. -/
def Within (f : Forest α) : Spot → Spot → Prop
  | .slot store i, .slot store' j => store = store' ∧ ∃ s, f.stores[store]? = some s ∧ s.Below i j
  | .branch h p, .branch h' q => h = h' ∧ p <+: q
  | _, _ => False

variable {f f' : Forest α}

/-! ## Trees at spots -/

theorem treeOf?_eq_some_iff {h : Nat} {t : RoseTree α} :
    f.treeOf? h = some t ↔ f.handles[h]? = some (.owned t) := by
  unfold treeOf?
  cases f.handles[h]? with
  | none => simp
  | some handle => cases handle <;> simp

theorem treeOf?_set {h g : Nat} {t : RoseTree α} (ht : f.treeOf? h = some t) (changed : RoseTree α) :
    Forest.treeOf? { f with handles := f.handles.setIfInBounds h (.owned changed) } g
      = if g = h then some changed else f.treeOf? g := by
  have hh : h < f.handles.size := (Array.getElem?_eq_some_iff.1 (treeOf?_eq_some_iff.1 ht)).1
  unfold treeOf?
  by_cases hgh : g = h
  · subst hgh
    simp [hh]
  · have hhg : ¬ h = g := fun heq => hgh heq.symm
    simp [hgh, hhg]

theorem subtreeAt?_slot {k i : Nat} {u : RoseTree α} :
    f.subtreeAt? (.slot k i) = some u ↔ ∃ s, f.stores[k]? = some s ∧ s.Shows i u := by
  constructor
  · intro h
    obtain ⟨c, hc, rfl⟩ := Option.map_eq_some_iff.1 h
    obtain ⟨s, hs, hi⟩ := Option.bind_eq_some_iff.1 hc
    split at hi
    · rename_i hlt
      obtain rfl := Option.some.inj hi
      exact ⟨s, hs, s.shows_subtree ⟨i, hlt⟩⟩
    · cases hi
  · rintro ⟨s, hs, hu⟩
    have hsubtree := NodeStore.subtree_eq_of_shows u ⟨i, hu.lt_size⟩ hu
    simp [subtreeAt?, cursorAt?, cursorOf?, hs, hu.lt_size, Cursor.subtree, hsubtree]

theorem subtreeAt?_branch {h : Nat} {path : List Nat} {u : RoseTree α} :
    f.subtreeAt? (.branch h path) = some u ↔ ∃ t, f.treeOf? h = some t ∧ t.at? path = some u := by
  simp [subtreeAt?, cursorAt?, Cursor.subtree, Option.bind_eq_some_iff]

/-- The children of a node are at the spots of its children, and what does not lie in the tree of the node
does not lie in theirs. -/
theorem exists_childAt? {x : Spot} {u c : RoseTree α} {k : Nat} (hu : f.subtreeAt? x = some u)
    (hc : u.children[k]? = some c) :
    ∃ z, f.childAt? x k = some z ∧ f.subtreeAt? z = some c ∧ ∀ y, ¬ f.Within x y → ¬ f.Within z y := by
  cases x with
  | slot l i =>
    obtain ⟨s, hs, hshows⟩ := subtreeAt?_slot.1 hu
    have hpath : u.at? [k] = some c := by rw [RoseTree.at?_singleton, hc]
    rcases hshows.descend? [k] with ⟨-, hnone⟩ | ⟨j, w, hj, hw, hjw⟩
    · rw [hpath] at hnone
      cases hnone
    · obtain rfl : c = w := Option.some.inj (hpath.symm.trans hw)
      have hchild : s.child? i k = some j := by
        rw [NodeStore.descend?_cons] at hj
        obtain ⟨d, hd, hdj⟩ := Option.bind_eq_some_iff.1 hj
        rw [NodeStore.descend?_nil (NodeStore.lt_size_of_child? hd)] at hdj
        rw [hd, hdj]
      refine ⟨.slot l j, by simp [childAt?, hs, hchild], subtreeAt?_slot.2 ⟨s, hs, hjw⟩, ?_⟩
      rintro y hy
      cases y with
      | branch h q => exact id
      | slot m a =>
        rintro ⟨rfl, s', hs', hbelow⟩
        obtain rfl : s = s' := Option.some.inj (hs.symm.trans hs')
        exact hy ⟨rfl, s, hs, hbelow.of_child? hchild⟩
  | branch h p =>
    obtain ⟨t, ht, hp⟩ := subtreeAt?_branch.1 hu
    have hpk : t.at? (p ++ [k]) = some c := by
      rw [RoseTree.at?_append, hp, Option.bind_some, RoseTree.at?_singleton, hc]
    refine ⟨.branch h (p ++ [k]), by simp [childAt?, cursorAt?, ht, hpk],
      subtreeAt?_branch.2 ⟨t, ht, hpk⟩, ?_⟩
    rintro y hy
    cases y with
    | slot m a => exact id
    | branch g q =>
      rintro ⟨rfl, hprefix⟩
      exact hy ⟨rfl, (List.prefix_append p [k]).trans hprefix⟩

/-! ## Edits at spots -/

/-- What is done through a handle at the end of a path is done at the spot there. -/
theorem edit?_eq_editAt? (h : Nat) (path : List Nat) (e : Edit α) :
    f.edit? h path e = (f.spot? h path).bind (f.editAt? e) := by
  cases hh : f.handles[h]? with
  | none => simp [edit?, spot?, hh]
  | some handle =>
    cases handle with
    | shared store node =>
      cases hs : f.stores[store]? with
      | none => simp [edit?, spot?, hh, hs]
      | some s =>
        cases hi : s.descend? path node with
        | none => simp [edit?, spot?, hh, hs, hi]
        | some i => simp [edit?, spot?, editAt?, hh, hs, hi, NodeStore.lt_size_of_descend? hi]
    | owned tree =>
      have htree : f.treeOf? h = some tree := treeOf?_eq_some_iff.2 hh
      cases ht : tree.at? path with
      | none => simp [edit?, spot?, hh, ht, RoseTree.modifyAt?_eq_none ht]
      | some u => simp [edit?, spot?, editAt?, hh, ht, htree]

theorem editAt?_slot {k i : Nat} {s : NodeStore α} (hs : f.stores[k]? = some s) (hi : i < s.size)
    (e : Edit α) :
    f.editAt? e (.slot k i) = some { f with stores := f.stores.setIfInBounds k (s.edit i e) } := by
  simp [editAt?, hs, hi]

theorem editAt?_slot_eq_some_iff {k i : Nat} {e : Edit α} :
    f.editAt? e (.slot k i) = some f' ↔ ∃ s, f.stores[k]? = some s ∧ i < s.size ∧
      { f with stores := f.stores.setIfInBounds k (s.edit i e) } = f' := by
  simp [editAt?, Option.bind_eq_some_iff]

theorem editAt?_branch_eq_some_iff {h : Nat} {path : List Nat} {e : Edit α} :
    f.editAt? e (.branch h path) = some f' ↔ ∃ t t', f.treeOf? h = some t ∧
      t.modifyAt? (fun u => u.edit e) path = some t' ∧
      { f with handles := f.handles.setIfInBounds h (.owned t') } = f' := by
  simp [editAt?, Option.bind_eq_some_iff]

/-- After an edit at a node of a store, the edited store is in its place. -/
theorem store_editAt? {k i : Nat} {e : Edit α} {s : NodeStore α} (hs : f.stores[k]? = some s)
    (hf' : f.editAt? e (.slot k i) = some f') : f'.stores[k]? = some (s.edit i e) := by
  obtain ⟨s', hs', -, rfl⟩ := editAt?_slot_eq_some_iff.1 hf'
  obtain rfl : s = s' := Option.some.inj (hs.symm.trans hs')
  have hk : k < f.stores.size := (Array.getElem?_eq_some_iff.1 hs).1
  exact Array.getElem?_setIfInBounds_self_of_lt hk

/-- After an edit in an owned tree, the changed tree is under its handle. -/
theorem treeOf?_editAt? {h : Nat} {path : List Nat} {e : Edit α} {t : RoseTree α}
    (ht : f.treeOf? h = some t) (hf' : f.editAt? e (.branch h path) = some f') :
    ∃ t', t.modifyAt? (fun u => u.edit e) path = some t' ∧ f'.treeOf? h = some t' := by
  obtain ⟨tree, t', htree, ht', rfl⟩ := editAt?_branch_eq_some_iff.1 hf'
  obtain rfl : t = tree := Option.some.inj (ht.symm.trans htree)
  exact ⟨t', ht', by rw [treeOf?_set ht, if_pos rfl]⟩

/-- Where there is a tree it can be edited. -/
theorem exists_editAt? {y : Spot} {t : RoseTree α} (ht : f.subtreeAt? y = some t) (e : Edit α) :
    ∃ f', f.editAt? e y = some f' := by
  cases y with
  | slot k j =>
    obtain ⟨s, hs, hshows⟩ := subtreeAt?_slot.1 ht
    exact ⟨_, editAt?_slot hs hshows.lt_size e⟩
  | branch h q =>
    obtain ⟨tree, htree, hq⟩ := subtreeAt?_branch.1 ht
    obtain ⟨changed, hchanged, -⟩ := RoseTree.exists_modifyAt? (fun t => t.edit e) hq
    exact ⟨_, by rw [editAt?, htree, Option.bind_some, hchanged, Option.map_some]⟩

end Forest

/-- An edit of a node changes nothing else in the store, but for what it adds. -/
theorem NodeStore.grownAt_edit {α : Type} {s : NodeStore α} {i : Nat} (hi : i < s.size) (e : Edit α) :
    s.GrownAt i (s.edit i e) := by
  cases e with
  | setValue v => exact grownAt_setValue s i v
  | addChild v => exact grownAt_addChild hi v
  | graft tree => exact (graftedAt_graft tree s hi).grown

/-- A node shows the edited tree. -/
theorem NodeStore.shows_edit {α : Type} {s : NodeStore α} {i : Nat} {t : RoseTree α} (h : s.Shows i t)
    (e : Edit α) : (s.edit i e).Shows i (t.edit e) := by
  cases e with
  | setValue v => exact shows_setValue h v
  | addChild v => exact (graftedAt_addChild h.lt_size v).shows h
  | graft tree => exact (graftedAt_graft tree s h.lt_size).shows h

namespace Forest

variable {α : Type} {f f' : Forest α}

theorem subtreeAt?_editAt?_self {y : Spot} {t : RoseTree α} {e : Edit α} (ht : f.subtreeAt? y = some t)
    (hf' : f.editAt? e y = some f') : f'.subtreeAt? y = some (t.edit e) := by
  cases y with
  | slot k j =>
    obtain ⟨s, hs, hshows⟩ := subtreeAt?_slot.1 ht
    exact subtreeAt?_slot.2 ⟨s.edit j e, store_editAt? hs hf', NodeStore.shows_edit hshows e⟩
  | branch h q =>
    obtain ⟨tree, htree, hq⟩ := subtreeAt?_branch.1 ht
    obtain ⟨changed, hchanged, hself⟩ := RoseTree.exists_modifyAt? (fun t => t.edit e) hq
    obtain ⟨tree', htree', hroot⟩ := treeOf?_editAt? htree hf'
    obtain rfl : changed = tree' := Option.some.inj (hchanged.symm.trans htree')
    exact subtreeAt?_branch.2 ⟨changed, hroot, hself⟩

/-- **An edit at a spot changes the trees there and above alone.** A tree that the spot does not lie in stays,
and the spot still does not lie in it. -/
theorem subtreeAt?_editAt?_of_not_within {x y : Spot} {u : RoseTree α} {e : Edit α}
    (hf' : f.editAt? e y = some f') (hu : f.subtreeAt? x = some u) (apart : ¬ f.Within x y) :
    f'.subtreeAt? x = some u ∧ ¬ f'.Within x y := by
  cases y with
  | slot k j =>
    obtain ⟨s, hs, hj, hset⟩ := editAt?_slot_eq_some_iff.1 hf'
    have hstore := store_editAt? hs hf'
    cases x with
    | branch h p =>
      subst hset
      exact ⟨hu, id⟩
    | slot l i =>
      obtain ⟨s', hs', hshows⟩ := subtreeAt?_slot.1 hu
      by_cases hkl : k = l
      · subst hkl
        obtain rfl : s = s' := Option.some.inj (hs.symm.trans hs')
        have hbelow : ¬ s.Below i j := fun h => apart ⟨rfl, s, hs, h⟩
        have hgrown := NodeStore.grownAt_edit hj e
        refine ⟨subtreeAt?_slot.2 ⟨s.edit j e, hstore, hgrown.shows hshows hbelow⟩, ?_⟩
        rintro ⟨-, s'', hs'', hbelow'⟩
        obtain rfl : s.edit j e = s'' := Option.some.inj (hstore.symm.trans hs'')
        exact hgrown.not_below hshows.lt_size hbelow hbelow'
      · refine ⟨subtreeAt?_slot.2 ⟨s', ?_, hshows⟩, fun h => hkl h.1.symm⟩
        rw [← hset, Array.getElem?_setIfInBounds_ne hkl, hs']
  | branch h q =>
    obtain ⟨tree, changed, htree, hchanged, rfl⟩ := editAt?_branch_eq_some_iff.1 hf'
    cases x with
    | slot l i => exact ⟨hu, id⟩
    | branch g p =>
      refine ⟨?_, apart⟩
      obtain ⟨tree', htree', hp⟩ := subtreeAt?_branch.1 hu
      by_cases hgh : g = h
      · subst hgh
        obtain rfl : tree = tree' := Option.some.inj (htree.symm.trans htree')
        refine subtreeAt?_branch.2 ⟨changed, by rw [treeOf?_set htree, if_pos rfl], ?_⟩
        exact RoseTree.at?_modifyAt?_of_not_isPrefix (RoseTree.isPrefix_children_edit e) hchanged hp
          fun hprefix => apart ⟨rfl, hprefix⟩
      · exact subtreeAt?_branch.2 ⟨tree', by rw [treeOf?_set htree, if_neg hgh, htree'], hp⟩

end Forest

end FrontEnd
