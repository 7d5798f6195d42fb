import FrontEnd.Proofs.Tree.BreadthFirst
import FrontEnd.Proofs.Tree.Fresh
import FrontEnd.Proofs.Tree.Spot

/-! # Copies of trees

A tree is copied node by node: its value becomes a new last child of the target, and the copies of its
children go below that. The source is read again at every turn, from a forest that has grown meanwhile, and
may be of the very store that the copy is made in. As long as the target does not lie in the tree of the
source the writes never meet the reads, so the copying ends and comes to one graft of the tree that the
source had at the start (`Forest.exists_copied`).
-/

namespace FrontEnd

/-! ## A graft, one child after another -/

namespace RoseTree

variable {α : Type}

/-- A graft of a tree with one more child is a graft of that child below the new last child. -/
theorem modifyAt?_graft_concat {path : List Nat} {t t' u : RoseTree α} (v : α)
    (ts : List (RoseTree α)) (new : RoseTree α) (hu : t.at? path = some u)
    (ht' : t.modifyAt? (graft (.node v ts)) path = some t') :
    t'.modifyAt? (graft new) (path ++ [u.children.length])
      = t.modifyAt? (graft (.node v (ts ++ [new]))) path := by
  induction path generalizing t t' with
  | nil =>
    obtain rfl : t = u := by simpa [at?] using hu
    obtain rfl : graft (.node v ts) t = t' := by simpa [modifyAt?] using ht'
    simp [modifyAt?, graft, children, value]
  | cons k path ih =>
    obtain ⟨c, hc, hcu⟩ := Option.bind_eq_some_iff.1 hu
    rw [modifyAt?, hc, Option.bind_some] at ht'
    obtain ⟨c', hc', rfl⟩ := Option.map_eq_some_iff.1 ht'
    have hk : k < t.children.length := (List.getElem?_eq_some_iff.1 hc).1
    rw [List.cons_append, modifyAt?, modifyAt?, hc, children, List.getElem?_set_self hk,
      Option.bind_some, Option.bind_some, ih hcu hc']
    simp [value]

end RoseTree

namespace NodeStore

variable {α : Type}

theorem graftAll_concat (ts : List (RoseTree α)) (new : RoseTree α) (s : NodeStore α) (i : Nat) :
    s.graftAll i (ts ++ [new]) = (s.graftAll i ts).graft i new := by
  induction ts generalizing s with
  | nil => simp [graftAll]
  | cons t ts ih => rw [List.cons_append, graftAll, graftAll, ih]

theorem graft_concat (v : α) (ts : List (RoseTree α)) (new : RoseTree α) (s : NodeStore α) (i : Nat) :
    s.graft i (.node v (ts ++ [new])) = (s.graft i (.node v ts)).graft s.size new := by
  rw [graft, graft, graftAll_concat]

/-- The first new node of a graft shows the tree. -/
theorem shows_graft (t : RoseTree α) {s : NodeStore α} {i : Nat} (hi : i < s.size) :
    (s.graft i t).Shows s.size t := by
  obtain ⟨v, ts⟩ := t
  have hleaf : (s.addChild i v).Shows s.size (.leaf v) := by
    refine ⟨by rw [value?_addChild s hi, if_pos rfl], ?_⟩
    rw [children_addChild s hi, if_neg (by omega), children_of_size_le (Nat.le_refl _)]
    trivial
  exact (graftedAt_graftAll ts (s.addChild i v) (lt_size_addChild hi v)).shows hleaf

end NodeStore

namespace Forest

variable {α : Type} {f f' : Forest α}

/-! ## Copying -/

/-- The number of children of the node at a spot. -/
def childCountAt (f : Forest α) (x : Spot) : Nat :=
  match f.cursorAt? x with
  | some c => c.childCount
  | none => 0

/-- The forest with a copy of the tree at the source as the new last child of the target, made node by node.
There is no result if a spot is not there, or if the copying goes down more levels than `fuel`. -/
def copyNodes? : (fuel : Nat) → (f : Forest α) → (source target : Spot) → Option (Forest α)
  | 0, _, _, _ => none
  | fuel + 1, f, source, target => do
    let read ← f.cursorAt? source
    let f ← f.editAt? (.addChild read.value) target
    match f.childAt? target (f.childCountAt target - 1) with
    | some copy =>
      (List.range (f.childCountAt source)).foldlM (fun f k =>
        match f.childAt? source k with
        | some child => copyNodes? fuel f child copy
        | none => some f) f
    | none => some f

theorem childCountAt_eq {x : Spot} {u : RoseTree α} (hu : f.subtreeAt? x = some u) :
    f.childCountAt x = u.children.length := by
  obtain ⟨c, hc, rfl⟩ := Option.map_eq_some_iff.1 hu
  rw [childCountAt, hc]
  exact c.childCount_eq

/-! ## The new child -/

/-- The spot that the next child of a node will have. -/
def NextChild (f : Forest α) : Spot → Spot → Prop
  | .slot k i, z => ∃ s, f.stores[k]? = some s ∧ i < s.size ∧ z = .slot k s.size
  | .branch h p, z =>
    ∃ t u, f.treeOf? h = some t ∧ t.at? p = some u ∧ z = .branch h (p ++ [u.children.length])

theorem exists_nextChild {y : Spot} {t : RoseTree α} (ht : f.subtreeAt? y = some t) :
    ∃ z, f.NextChild y z := by
  cases y with
  | slot k i =>
    obtain ⟨s, hs, hshows⟩ := subtreeAt?_slot.1 ht
    exact ⟨_, s, hs, hshows.lt_size, rfl⟩
  | branch h p =>
    obtain ⟨tree, htree, hp⟩ := subtreeAt?_branch.1 ht
    exact ⟨_, tree, t, htree, hp, rfl⟩

namespace NextChild

variable {y z : Spot}

/-- A graft puts its tree at the spot of the next child. -/
theorem subtreeAt? (hz : f.NextChild y z) {new : RoseTree α}
    (hf' : f.editAt? (.graft new) y = some f') : f'.subtreeAt? z = some new := by
  cases y with
  | slot k i =>
    obtain ⟨s, hs, hi, rfl⟩ := hz
    exact subtreeAt?_slot.2 ⟨s.graft i new, store_editAt? hs hf', NodeStore.shows_graft new hi⟩
  | branch h p =>
    obtain ⟨t, u, ht, hu, rfl⟩ := hz
    have hself := subtreeAt?_editAt?_self (subtreeAt?_branch.2 ⟨t, ht, hu⟩) hf'
    obtain ⟨t', ht', hu'⟩ := subtreeAt?_branch.1 hself
    refine subtreeAt?_branch.2 ⟨t', ht', ?_⟩
    rw [RoseTree.at?_append, hu', Option.bind_some, RoseTree.at?_singleton]
    simp [RoseTree.edit, RoseTree.graft, RoseTree.children]

/-- After a graft the next child is the last one. -/
theorem childAt? (hz : f.NextChild y z) {t new : RoseTree α} (ht : f.subtreeAt? y = some t)
    (hf' : f.editAt? (.graft new) y = some f') : f'.childAt? y t.children.length = some z := by
  have hnew := hz.subtreeAt? hf'
  cases y with
  | slot k i =>
    obtain ⟨s, hs, hi, rfl⟩ := hz
    obtain ⟨s', hs', hshows⟩ := subtreeAt?_slot.1 ht
    obtain rfl : s = s' := Option.some.inj (hs.symm.trans hs')
    have hcount : s.childCount i = t.children.length := by
      rw [NodeStore.childCount_eq_length]
      exact (NodeStore.showsAll_iff.1 (NodeStore.shows_iff.1 hshows).2).1
    have hchild := NodeStore.child?_graft new s hi
    rw [hcount] at hchild
    simp [Forest.childAt?, store_editAt? hs hf', NodeStore.edit, hchild]
  | branch h p =>
    obtain ⟨tree, u, htree, hu, rfl⟩ := hz
    obtain ⟨tree', htree', hp⟩ := subtreeAt?_branch.1 ht
    obtain rfl : tree = tree' := Option.some.inj (htree.symm.trans htree')
    obtain rfl : u = t := Option.some.inj (hu.symm.trans hp)
    obtain ⟨c, hc, -⟩ := Option.map_eq_some_iff.1 hnew
    rw [Forest.childAt?, hc, Option.map_some]

/-- What an existing tree does not hold, the next child included, it does not come to hold. -/
theorem not_within (hz : f.NextChild y z) {x : Spot} {u new : RoseTree α}
    (hf' : f.editAt? (.graft new) y = some f') (hu : f.subtreeAt? x = some u) (apart : ¬ f.Within x y) :
    ¬ f'.Within x z := by
  cases y with
  | slot k i =>
    obtain ⟨s, hs, hi, rfl⟩ := hz
    cases x with
    | branch h p => exact id
    | slot l j =>
      rintro ⟨rfl, s', hs', hbelow⟩
      obtain rfl : s.graft i new = s' := Option.some.inj ((store_editAt? hs hf').symm.trans hs')
      obtain ⟨s'', hs'', hshows⟩ := subtreeAt?_slot.1 hu
      obtain rfl : s = s'' := Option.some.inj (hs.symm.trans hs'')
      have hapart : ¬ s.Below j i := fun h => apart ⟨rfl, s, hs, h⟩
      have hgrown := (NodeStore.graftedAt_graft new s hi).grown
      exact hgrown.not_below_new hshows.lt_size hapart (Nat.le_refl _) hbelow
  | branch h p =>
    obtain ⟨t, w, ht, hw, rfl⟩ := hz
    cases x with
    | slot l j => exact id
    | branch g q =>
      rintro ⟨rfl, hprefix⟩
      rcases List.prefix_concat_iff.1 hprefix with rfl | hprefix
      · -- There was no tree at the spot of the next child.
        obtain ⟨t', ht', hq⟩ := subtreeAt?_branch.1 hu
        obtain rfl : t = t' := Option.some.inj (ht.symm.trans ht')
        rw [RoseTree.at?_append, hw, Option.bind_some, RoseTree.at?_singleton,
          List.getElem?_eq_none (Nat.le_refl _)] at hq
        cases hq
      · exact apart ⟨rfl, hprefix⟩

/-- A graft of a tree with one more child is a graft of that child at the next child. -/
theorem editAt?_graft_concat (hz : f.NextChild y z) {v : α} {ts : List (RoseTree α)}
    (hf' : f.editAt? (.graft (.node v ts)) y = some f') (new : RoseTree α) :
    f'.editAt? (.graft new) z = f.editAt? (.graft (.node v (ts ++ [new]))) y := by
  cases y with
  | slot k i =>
    obtain ⟨s, hs, hi, rfl⟩ := hz
    have hs' := store_editAt? hs hf'
    have hnext : s.size < (s.graft i (.node v ts)).size :=
      (NodeStore.shows_graft (.node v ts) hi).lt_size
    obtain rfl := Option.some.inj ((editAt?_slot hs hi (.graft (.node v ts))).symm.trans hf')
    rw [editAt?_slot hs hi, editAt?_slot hs' hnext]
    simp [NodeStore.edit, NodeStore.graft_concat, Array.setIfInBounds_setIfInBounds]
  | branch h p =>
    obtain ⟨t, u, ht, hu, rfl⟩ := hz
    obtain ⟨tree, t', htree, ht', rfl⟩ := editAt?_branch_eq_some_iff.1 hf'
    obtain rfl : t = tree := Option.some.inj (ht.symm.trans htree)
    simp only [editAt?, treeOf?_set ht, if_pos, ht, Option.bind_some, RoseTree.edit,
      RoseTree.modifyAt?_graft_concat v ts new hu ht', Array.setIfInBounds_setIfInBounds]

end NextChild

/-! ## Copying is grafting -/

mutual

/-- The copying of a tree from outside the target ends, if it may go down as many levels as the tree has,
and comes to a graft of the tree. -/
theorem copyNodes?_eq_editAt? : ∀ (u : RoseTree α) (f : Forest α) {fuel : Nat} {x y : Spot}
    {t : RoseTree α}, f.subtreeAt? x = some u → f.subtreeAt? y = some t → ¬ f.Within x y →
    u.height ≤ fuel → f.copyNodes? fuel x y = f.editAt? (.graft u) y
  | .node v ts, f, 0, x, y, t, _, _, _, hfuel => absurd hfuel (Nat.not_succ_le_zero _)
  | .node v ts, f, fuel + 1, x, y, t, hx, hy, apart, hfuel => by
    obtain ⟨c, hc, hcv⟩ := Option.map_eq_some_iff.1 hx
    have hvalue : c.value = v := by rw [c.value_eq, hcv, RoseTree.value]
    obtain ⟨z, hz⟩ := exists_nextChild hy
    -- The new child is grafted first as a single node, and gets its children turn by turn.
    obtain ⟨f₁, hf₁⟩ := exists_editAt? hy (.graft (.node v []))
    have hleaf : f.editAt? (.addChild v) y = some f₁ := by
      rw [← hf₁]
      cases y <;> rfl
    have hx₁ := (subtreeAt?_editAt?_of_not_within hf₁ hx apart).1
    have hlast : f₁.childCountAt y - 1 = t.children.length := by
      rw [childCountAt_eq (subtreeAt?_editAt?_self hy hf₁)]
      simp [RoseTree.edit, RoseTree.graft, RoseTree.children]
    have hloop := copyChildren?_eq_editAt? ts [] f hz hf₁ hx apart
      (Nat.le_of_succ_le_succ hfuel)
    rw [copyNodes?, hc]
    simp only [Option.bind_eq_bind, Option.bind_some, hvalue, hleaf, hlast, hz.childAt? hy hf₁,
      childCountAt_eq hx₁, List.range_eq_range']
    exact hloop

/-- The turns of the copying that are left, once the first children have been copied. -/
theorem copyChildren?_eq_editAt? : ∀ (ts copied : List (RoseTree α)) (f : Forest α) {f' : Forest α}
    {fuel : Nat} {v : α} {x y z : Spot}, f.NextChild y z →
    f.editAt? (.graft (.node v copied)) y = some f' → f.subtreeAt? x = some (.node v (copied ++ ts)) →
    ¬ f.Within x y → RoseTree.heightOfAll ts ≤ fuel →
    (List.range' copied.length ts.length).foldlM (fun f k =>
      match f.childAt? x k with
      | some child => f.copyNodes? fuel child z
      | none => some f) f' = f.editAt? (.graft (.node v (copied ++ ts))) y
  | [], copied, f, f', fuel, v, x, y, z, _, hf', _, _, _ => by
    rw [List.append_nil, hf']
    rfl
  | t :: ts, copied, f, f', fuel, v, x, y, z, hz, hf', hx, apart, hfuel => by
    rw [RoseTree.heightOfAll, Nat.max_le] at hfuel
    -- The source has stayed as it was, so its next child is the next tree to copy.
    have hx' := (subtreeAt?_editAt?_of_not_within hf' hx apart).1
    obtain ⟨child, hchild, ht, hheld⟩ := exists_childAt? hx' (k := copied.length) (c := t)
      (by simp [RoseTree.children])
    have hcopy := copyNodes?_eq_editAt? t f' ht (hz.subtreeAt? hf')
      (hheld z (hz.not_within hf' hx apart)) hfuel.1
    rw [hz.editAt?_graft_concat hf'] at hcopy
    obtain ⟨f'', hf''⟩ := exists_editAt? (hz.subtreeAt? hf') (.graft t)
    rw [hz.editAt?_graft_concat hf'] at hf''
    have happend : copied ++ t :: ts = (copied ++ [t]) ++ ts := by simp
    have hloop := copyChildren?_eq_editAt? ts (copied ++ [t]) f hz hf'' (happend ▸ hx) apart hfuel.2
    rw [List.length_cons, List.range'_succ, List.foldlM_cons, hchild]
    simp only [hcopy, hf'', Option.bind_eq_bind, Option.bind_some]
    rw [happend, ← hloop, List.length_append]
    rfl

end

/-! ## Copies through handles -/

/-- A handle of the node at a spot. Where the tree is owned it is a handle of the subtree. -/
def handleOf? (f : Forest α) : Spot → Option (Handle α)
  | .slot store i => some (.shared store i)
  | .branch h path => (f.subtreeAt? (.branch h path)).map .owned

theorem handleAt?_eq_handleOf? (h : Nat) (path : List Nat) :
    f.handleAt? h path = (f.spot? h path).bind f.handleOf? := by
  cases hh : f.handles[h]? with
  | none => simp [handleAt?, spot?, hh]
  | some handle =>
    cases handle with
    | shared store node =>
      cases hs : f.stores[store]? with
      | none => simp [handleAt?, spot?, hh, hs]
      | some s => cases hi : s.descend? path node <;> simp [handleAt?, spot?, handleOf?, hh, hs, hi]
    | owned tree =>
      have htree : f.treeOf? h = some tree := treeOf?_eq_some_iff.2 hh
      cases ht : tree.at? path with
      | none => simp [handleAt?, spot?, hh, ht]
      | some u =>
        have hu : f.subtreeAt? (.branch h path) = some u := subtreeAt?_branch.2 ⟨tree, htree, ht⟩
        simp [handleAt?, spot?, handleOf?, hh, ht, hu]

theorem exists_cursorOf?_handleOf? {x : Spot} {u : RoseTree α} {handle : Handle α}
    (hu : f.subtreeAt? x = some u) (hx : f.handleOf? x = some handle) :
    ∃ c, f.cursorOf? handle = some c ∧ c.subtree = u := by
  cases x with
  | slot k i =>
    obtain rfl := Option.some.inj hx
    exact Option.map_eq_some_iff.1 hu
  | branch h p =>
    rw [handleOf?, hu] at hx
    obtain rfl := Option.some.inj hx
    exact ⟨.owned u, rfl, rfl⟩

/-- A copy through handles is a graft at the spot of the target. An owned source is not read from the
forest, so the target may lie anywhere. -/
theorem copy?_eq_editAt? {x y : Spot} {u t : RoseTree α} {handle : Handle α} {h : Nat} {path : List Nat}
    (hu : f.subtreeAt? x = some u) (ht : f.subtreeAt? y = some t)
    (apart : ∀ k i, x = .slot k i → ¬ f.Within x y) (hx : f.handleOf? x = some handle)
    (hy : f.spot? h path = some y) : f.copy? handle h path = f.editAt? (.graft u) y := by
  have htarget : f.handleAt? h path = f.handleOf? y := by
    rw [handleAt?_eq_handleOf?, hy, Option.bind_some]
  have hgraft : ((f.cursorOf? handle).bind fun c => f.edit? h path (.graft c.subtree))
      = f.editAt? (.graft u) y := by
    obtain ⟨c, hc, rfl⟩ := exists_cursorOf?_handleOf? hu hx
    rw [hc, Option.bind_some, edit?_eq_editAt?, hy, Option.bind_some]
  cases x with
  | branch g p =>
    rw [handleOf?, hu] at hx
    obtain rfl := Option.some.inj hx
    exact hgraft
  | slot k i =>
    obtain rfl := Option.some.inj hx
    cases y with
    | branch g q =>
      rw [handleOf?, ht] at htarget
      simp only [copy?, htarget]
      exact hgraft
    | slot l j =>
      rw [handleOf?] at htarget
      simp only [copy?, htarget]
      split
      · -- Within one store the copy reads what it writes to, and still is a graft.
        rename_i hsame
        subst hsame
        obtain ⟨s, hs, hi⟩ := subtreeAt?_slot.1 hu
        obtain ⟨s', hs', hj⟩ := subtreeAt?_slot.1 ht
        obtain rfl : s = s' := Option.some.inj (hs.symm.trans hs')
        have hbelow : ¬ s.Below i j := fun h => apart k i rfl ⟨rfl, s, hs, h⟩
        rw [editAt?_slot hs hj.lt_size, hs, Option.bind_some,
          NodeStore.copyWithin?_eq_graft hi hj.lt_size hbelow]
        rfl
      · exact hgraft

/-! ## What a copy does -/

/-- A store of the values 5, 6, 7 and 8, where 6 and 7 are the children of 5, and 8 is the child of 7. -/
def sampleStore : NodeStore Nat := (((NodeStore.singleton 5).addChild 0 6).addChild 0 7).addChild 2 8

end Forest

end FrontEnd
