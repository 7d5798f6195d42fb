import FrontEnd.Proofs.Tree.Built
import FrontEnd.Proofs.Tree.Copy
import FrontEnd.Proofs.Tree.Simulation

/-! # Forests that are reached

Any handle of a node may be kept, and the store of the node may be changed through it at any later time. Still
every store stays a tree below its root, and every handle stays a handle of a node that is there
(`Forest.Reached.intact`): whatever is done comes down to edits at spots, and an edit is made of the steps
that build a store.
-/

namespace FrontEnd

/-- What is done through the handles of a forest. -/
inductive Move (α : Type) where
  /-- A step through handles, where new trees are made in a form. How much room is set aside for a new tree
  makes no difference. -/
  | step (form : Form) (step : Step α)
  /-- A new handle of the node at the end of a path. A node of a store is the same under both handles; an
  owned tree is copied. -/
  | hand (tree : Nat) (path : List Nat)

namespace Forest

variable {α : Type}

/-- The forest after a move. No handle is ever taken back. -/
def move? (blank : α) (f : Forest α) : Move α → Option (Forest α)
  | .step form step => f.perform? form blank step
  | .hand tree path =>
    match f.handleAt? tree path with
    | some handle => some (f.addHandle handle)
    | none => some f

/-- A node of a store is not copied to a place below itself. -/
def Allows (f : Forest α) : Move α → Prop
  | .step _ (.copy source node target path) =>
    ∀ k i y, f.spot? source node = some (.slot k i) → f.spot? target path = some y →
      ¬ f.Within (.slot k i) y
  | _ => True

/-- Moves lead from one forest to another. -/
inductive Leads (blank : α) (f : Forest α) : Forest α → Prop
  | refl : Leads blank f f
  | move {g g' : Forest α} (leads : Leads blank f g) (move : Move α) (allowed : g.Allows move)
      (hg' : g.move? blank move = some g') : Leads blank f g'

/-- A forest that moves lead to from no trees at all. -/
def Reached (blank : α) (f : Forest α) : Prop := Leads blank {} f

/-! ## What edits keep -/

/-- The handles into stores are the same as before. -/
def KeepsHandles (f f' : Forest α) : Prop :=
  ∀ h k i : Nat, f.handles[h]? = some (.shared k i) → f'.handles[h]? = some (.shared k i)

/-- Every store has been built step by step, and every handle into a store is of a node that is there. -/
structure Sound (f : Forest α) : Prop where
  built : ∀ (k : Nat) (s : NodeStore α), f.stores[k]? = some s → s.Built
  held : ∀ h k i : Nat, f.handles[h]? = some (.shared k i) → ∃ s, f.stores[k]? = some s ∧ i < s.size

variable {f g f' : Forest α}

theorem sound_empty : Sound ({} : Forest α) where
  built k s hs := by simp at hs
  held h k i hh := by simp at hh

theorem KeepsHandles.refl (f : Forest α) : f.KeepsHandles f := fun _ _ _ hh => hh

theorem KeepsHandles.trans (first : f.KeepsHandles g) (next : g.KeepsHandles f') : f.KeepsHandles f' :=
  fun h k i hh => next h k i (first h k i hh)

theorem keepsHandles_push {handle : Handle α} (hf' : f'.handles = f.handles.push handle) :
    f.KeepsHandles f' := by
  intro h k i hh
  have hlt : h < f.handles.size := (Array.getElem?_eq_some_iff.1 hh).1
  rw [hf', Array.getElem?_push, if_neg (Nat.ne_of_lt hlt), hh]

theorem keepsHandles_editAt? {e : Edit α} {y : Spot} (hf' : f.editAt? e y = some f') :
    f.KeepsHandles f' := by
  intro h k i hh
  cases y with
  | slot l j =>
    obtain ⟨s, -, -, rfl⟩ := editAt?_slot_eq_some_iff.1 hf'
    exact hh
  | branch g q =>
    obtain ⟨tree, changed, htree, -, rfl⟩ := editAt?_branch_eq_some_iff.1 hf'
    have hne : ¬ g = h := by
      rintro rfl
      rw [treeOf?_eq_some_iff.1 htree] at hh
      cases hh
    simp [hne, hh]

namespace Sound

theorem addStore (sound : f.Sound) {s : NodeStore α} (hs : s.Built) : (f.addStore s).Sound where
  built k r hr := by
    simp only [Forest.addStore, Array.getElem?_push] at hr
    split at hr
    · obtain rfl := Option.some.inj hr
      exact hs
    · exact sound.built k r hr
  held h k i hh := by
    simp only [Forest.addStore, Array.getElem?_push] at hh ⊢
    split at hh
    · obtain ⟨rfl, rfl⟩ : f.stores.size = k ∧ 0 = i := by simpa using hh
      exact ⟨s, if_pos rfl, s.size_pos⟩
    · obtain ⟨r, hr, hi⟩ := sound.held h k i hh
      have hk : k < f.stores.size := (Array.getElem?_eq_some_iff.1 hr).1
      exact ⟨r, by rw [if_neg (Nat.ne_of_lt hk), hr], hi⟩

theorem addHandle (sound : f.Sound) {handle : Handle α}
    (hhandle : ∀ k i, handle = .shared k i → ∃ s, f.stores[k]? = some s ∧ i < s.size) :
    (f.addHandle handle).Sound where
  built := sound.built
  held h k i hh := by
    simp only [Forest.addHandle, Array.getElem?_push] at hh
    split at hh
    · exact hhandle k i (Option.some.inj hh)
    · exact sound.held h k i hh

theorem editAt? (sound : f.Sound) {e : Edit α} {y : Spot} (hf' : f.editAt? e y = some f') : f'.Sound := by
  cases y with
  | slot l j =>
    obtain ⟨s, hs, hj, hset⟩ := editAt?_slot_eq_some_iff.1 hf'
    have hstore := store_editAt? hs hf'
    have hothers : ∀ k, l ≠ k → f'.stores[k]? = f.stores[k]? := by
      intro k hlk
      rw [← hset, Array.getElem?_setIfInBounds_ne hlk]
    constructor
    · intro k r hr
      by_cases hlk : l = k
      · subst hlk
        obtain rfl : s.edit j e = r := Option.some.inj (hstore.symm.trans hr)
        exact (sound.built l s hs).edit hj e
      · exact sound.built k r ((hothers k hlk).symm.trans hr)
    · intro h k i hh
      rw [← hset] at hh
      obtain ⟨r, hr, hi⟩ := sound.held h k i hh
      by_cases hlk : l = k
      · subst hlk
        obtain rfl : s = r := Option.some.inj (hs.symm.trans hr)
        exact ⟨s.edit j e, hstore, Nat.lt_of_lt_of_le hi (NodeStore.grownAt_edit hj e).size_le⟩
      · exact ⟨r, (hothers k hlk).trans hr, hi⟩
  | branch g q =>
    obtain ⟨tree, changed, -, -, rfl⟩ := editAt?_branch_eq_some_iff.1 hf'
    refine ⟨sound.built, fun h k i hh => ?_⟩
    simp only [Array.getElem?_setIfInBounds] at hh
    split at hh
    · split at hh <;> cases hh
    · exact sound.held h k i hh

end Sound

/-! ## Moves -/

/-- What a path from a handle leads to is there. -/
theorem exists_subtreeAt?_of_spot? {h : Nat} {path : List Nat} {x : Spot}
    (hx : f.spot? h path = some x) : ∃ u, f.subtreeAt? x = some u := by
  unfold spot? at hx
  split at hx
  · rename_i k node hh
    obtain ⟨s, hs, hnode⟩ := Option.bind_eq_some_iff.1 hx
    obtain ⟨i, hi, rfl⟩ := Option.map_eq_some_iff.1 hnode
    have hlt := NodeStore.lt_size_of_descend? hi
    exact ⟨_, subtreeAt?_slot.2 ⟨s, hs, s.shows_subtree ⟨i, hlt⟩⟩⟩
  · rename_i tree hh
    obtain ⟨u, hu, rfl⟩ := Option.map_eq_some_iff.1 hx
    exact ⟨u, subtreeAt?_branch.2 ⟨tree, treeOf?_eq_some_iff.2 hh, hu⟩⟩
  · cases hx

theorem handleAt?_eq_shared_iff {h k x : Nat} {path : List Nat} :
    f.handleAt? h path = some (.shared k x) ↔
      ∃ s i, f.handles[h]? = some (.shared k i) ∧ f.stores[k]? = some s ∧ s.descend? path i = some x := by
  constructor
  · intro hx
    unfold handleAt? at hx
    split at hx
    · rename_i l i hh
      obtain ⟨s, hs, hi⟩ := Option.bind_eq_some_iff.1 hx
      obtain ⟨y, hy, heq⟩ := Option.map_eq_some_iff.1 hi
      cases heq
      exact ⟨s, i, hh, hs, hy⟩
    · obtain ⟨u, -, heq⟩ := Option.map_eq_some_iff.1 hx
      cases heq
    · cases hx
  · rintro ⟨s, i, hh, hs, hx⟩
    simp [handleAt?, hh, hs, hx]

theorem exists_store_of_handleAt? {h k i : Nat} {path : List Nat}
    (hh : f.handleAt? h path = some (.shared k i)) : ∃ s, f.stores[k]? = some s ∧ i < s.size := by
  obtain ⟨s, j, -, hs, hi⟩ := handleAt?_eq_shared_iff.1 hh
  exact ⟨s, hs, NodeStore.lt_size_of_descend? hi⟩

theorem exists_handleAt?_of_spot? {h : Nat} {path : List Nat} {x : Spot} (hx : f.spot? h path = some x) :
    ∃ handle c, f.handleOf? x = some handle ∧ f.handleAt? h path = some handle ∧
      f.cursor? h path = some c ∧ f.subtreeAt? x = some c.subtree := by
  obtain ⟨u, hu⟩ := exists_subtreeAt?_of_spot? hx
  obtain ⟨handle, hhandle⟩ : ∃ handle, f.handleOf? x = some handle := by
    cases x with
    | slot l i => exact ⟨_, rfl⟩
    | branch g p => exact ⟨.owned u, by rw [handleOf?, hu, Option.map_some]⟩
  have hat : f.handleAt? h path = some handle := by
    rw [handleAt?_eq_handleOf?, hx, Option.bind_some, hhandle]
  obtain ⟨c, hc, rfl⟩ := exists_cursorOf?_handleOf? hu hhandle
  exact ⟨handle, c, hhandle, hat, by rw [cursor?, hat, Option.bind_some, hc], hu⟩

/-- A copy is the edit that grafts the tree of the source. -/
theorem move?_copy {blank : α} {form : Form} {source target : Nat} {node path : List Nat}
    (allowed : f.Allows (.step form (.copy source node target path))) :
    f.move? blank (.step form (.copy source node target path))
      = some (match f.cursor? source node with
        | some c => (f.edit? target path (.graft c.subtree)).getD f
        | none => f) := by
  cases hx : f.spot? source node with
  | none =>
    have hsource : f.handleAt? source node = none := by rw [handleAt?_eq_handleOf?, hx, Option.bind_none]
    simp [move?, perform?, cursor?, hsource]
  | some x =>
    obtain ⟨handle, c, hhandle, hsource, hc, hu⟩ := exists_handleAt?_of_spot? hx
    cases hy : f.spot? target path with
    | none =>
      have htarget : f.handleAt? target path = none := by
        rw [handleAt?_eq_handleOf?, hy, Option.bind_none]
      simp [move?, perform?, hsource, htarget, hc, edit?_eq_editAt?, hy]
    | some y =>
      obtain ⟨other, d, -, htarget, -, ht⟩ := exists_handleAt?_of_spot? hy
      have hcopy : f.copy? handle target path = f.editAt? (.graft c.subtree) y := by
        refine copy?_eq_editAt? hu ht ?_ hhandle hy
        rintro l i rfl
        exact allowed l i y hx hy
      obtain ⟨f', hf'⟩ := exists_editAt? ht (.graft c.subtree)
      simp [move?, perform?, hsource, htarget, hc, hcopy, edit?_eq_editAt?, hy, hf']

/-- Every move that is allowed can be made. It keeps a forest sound, and its handles. -/
theorem Sound.exists_move? (sound : f.Sound) (blank : α) {move : Move α} (allowed : f.Allows move) :
    ∃ f', f.move? blank move = some f' ∧ f'.Sound ∧ f.KeepsHandles f' := by
  have hkeep : f.Sound ∧ f.KeepsHandles f := ⟨sound, .refl f⟩
  have hedit : ∀ tree path e,
      ((f.edit? tree path e).getD f).Sound ∧ f.KeepsHandles ((f.edit? tree path e).getD f) := by
    intro tree path e
    rw [edit?_eq_editAt?]
    cases hf' : (f.spot? tree path).bind (f.editAt? e) with
    | none => exact hkeep
    | some f' =>
      obtain ⟨y, -, hy⟩ := Option.bind_eq_some_iff.1 hf'
      exact ⟨sound.editAt? hy, keepsHandles_editAt? hy⟩
  cases move with
  | hand tree path =>
    cases hhandle : f.handleAt? tree path with
    | none => exact ⟨f, by simp [move?, hhandle], hkeep⟩
    | some handle =>
      refine ⟨f.addHandle handle, by simp [move?, hhandle], sound.addHandle ?_, keepsHandles_push rfl⟩
      rintro k i rfl
      exact exists_store_of_handleAt? hhandle
  | step form step =>
    cases step with
    | make =>
      cases form with
      | shared => exact ⟨_, rfl, sound.addStore (.singleton blank), keepsHandles_push rfl⟩
      | owned => exact ⟨_, rfl, sound.addHandle nofun, keepsHandles_push rfl⟩
    | makeShape breadth depth =>
      cases form with
      | shared => exact ⟨_, rfl, sound.addStore (.ofShape blank breadth depth), keepsHandles_push rfl⟩
      | owned => exact ⟨_, rfl, sound.addHandle nofun, keepsHandles_push rfl⟩
    | setValue tree path v => exact ⟨_, rfl, hedit tree path (.setValue v)⟩
    | addChild tree path v => exact ⟨_, rfl, hedit tree path (.addChild v)⟩
    | copy source node target path =>
      refine ⟨_, move?_copy allowed, ?_⟩
      cases f.cursor? source node with
      | none => exact hkeep
      | some c => exact hedit target path (.graft c.subtree)

/-- A run of moves keeps a forest sound, and its handles. -/
theorem Sound.leads (sound : f.Sound) {blank : α} (leads : f.Leads blank f') :
    f'.Sound ∧ f.KeepsHandles f' := by
  induction leads with
  | refl => exact ⟨sound, .refl f⟩
  | move _ _ allowed hg' ih =>
    obtain ⟨hsound, hkept⟩ := ih
    obtain ⟨g'', hg'', hsound', hkept'⟩ := hsound.exists_move? blank allowed
    obtain rfl := Option.some.inj (hg'.symm.trans hg'')
    exact ⟨hsound', hkept.trans hkept'⟩

/-- What holds of a forest that has been reached. -/
structure Intact (blank : α) (f : Forest α) : Prop where
  /-- Every store is a tree below its root. -/
  stores : ∀ (k : Nat) (s : NodeStore α), f.stores[k]? = some s → s.TreeShaped
  /-- Every handle that has been handed out, in whatever forest on the way, is of a node that is there. -/
  handed : ∀ g : Forest α, g.Reached blank → g.Leads blank f → ∀ h k i : Nat,
    g.handles[h]? = some (.shared k i) → ∃ s, f.stores[k]? = some s ∧ i < s.size
  /-- So is every handle that a path leads to. -/
  found : ∀ (h k i : Nat) (path : List Nat), f.handleAt? h path = some (.shared k i) →
    ∃ s, f.stores[k]? = some s ∧ i < s.size
  /-- Every move that is allowed has a result. -/
  moves : ∀ move, f.Allows move → ∃ f', f.move? blank move = some f'

namespace Reached

variable {blank : α}

theorem sound (reached : f.Reached blank) : f.Sound := (sound_empty.leads reached).1

/-- **Every store that is reached is a tree below its root, and no handle leads out of it**, whatever has been
done through whatever handles. -/
theorem intact (reached : f.Reached blank) : f.Intact blank where
  stores k s hs := (reached.sound.built k s hs).treeShaped
  handed g hg leads h k i hh := by
    obtain ⟨hsound, hkept⟩ := hg.sound.leads leads
    exact hsound.held h k i (hkept h k i hh)
  found _ _ _ _ hh := exists_store_of_handleAt? hh
  moves move allowed := by
    obtain ⟨f', hf', -⟩ := reached.sound.exists_move? blank allowed
    exact ⟨f', hf'⟩

/-- A store under two handles, of its root and of its third node. -/
def sampleHanded (s : NodeStore Nat) : Forest Nat :=
  { stores := #[s], handles := #[.shared 0 0, .shared 0 2] }

/-- The nodes of `sampleStore` are added one by one, the last of them through a handle of the second child of
the root. -/
theorem reached_sampleHanded : (sampleHanded sampleStore).Reached 0 := by
  have made := Leads.move (.refl : Leads 0 ({} : Forest Nat) {}) (.step .shared .make) trivial rfl
  have five := made.move (.step .shared (.setValue 0 [] 5)) trivial rfl
  have six := five.move (.step .shared (.addChild 0 [] 6)) trivial rfl
  have seven := six.move (.step .shared (.addChild 0 [] 7)) trivial rfl
  have handed := seven.move (.hand 0 [1]) trivial rfl
  exact handed.move (.step .shared (.addChild 1 [] 8)) trivial rfl

/-- The second child of the root can be copied under the first, and then the store is as it should be. -/
theorem intact_sample :
    (sampleHanded (sampleStore.graft 1 (.node 7 [.leaf 8]))).Reached 0 ∧
      (sampleHanded (sampleStore.graft 1 (.node 7 [.leaf 8]))).Intact 0 := by
  have hapart : ¬ sampleStore.Below 2 1 := NodeStore.not_below_of_lt (by decide)
  have allowed : (sampleHanded sampleStore).Allows (.step .shared (.copy 1 [] 0 [0])) := by
    rintro k i y hx hy
    cases hx
    cases hy
    rintro ⟨-, s, hs, hbelow⟩
    cases hs
    exact hapart hbelow
  have hshows : sampleStore.Shows 2 (.node 7 [.leaf 8]) := ⟨rfl, ⟨rfl, trivial⟩, trivial⟩
  have hcopy := NodeStore.copyWithin?_eq_graft hshows (by decide) hapart
  have reached : (sampleHanded (sampleStore.graft 1 (.node 7 [.leaf 8]))).Reached 0 :=
    reached_sampleHanded.move (.step .shared (.copy 1 [] 0 [0])) allowed
      (congrArg (Option.map sampleHanded) hcopy)
  exact ⟨reached, intact reached⟩

end Reached

end Forest

end FrontEnd
