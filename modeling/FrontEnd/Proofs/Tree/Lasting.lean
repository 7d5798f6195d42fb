import FrontEnd.Proofs.Tree.History
import FrontEnd.Proofs.Tree.Reached

/-! # Handles that last

A move changes a store by what it writes to it and by nothing else, so a run of moves continues the history of
the store, and the store is extended at its end. Hence a handle stays a handle of the same node, a path from
it goes on to lead to the node that it led to, and the value of a node is the one that was written to it last
(`Forest.Reached.handles_last`).
-/

namespace FrontEnd

/-! ## What a move does to a store -/

/-- What becomes of a store, or of the place of a store that is not there, by a move that writes to it. -/
inductive Changes {α : Type} : Option (NodeStore α) → List (Write α) → Option (NodeStore α) → Prop
  | kept (store : Option (NodeStore α)) : Changes store [] store
  | made {s : NodeStore α} {history : List (Write α)} (tells : s.Tells history) :
      Changes none history (some s)
  | edited {s : NodeStore α} {i : Nat} (hi : i < s.size) (e : Edit α) :
      Changes (some s) (e.writes i) (some (s.edit i e))

/-- A history tells what is at the place of a store. Nothing is written before the store is made. -/
def Told {α : Type} (history : List (Write α)) : Option (NodeStore α) → Prop
  | none => history = []
  | some s => s.Tells history

namespace Changes

variable {α : Type} {store store' : Option (NodeStore α)} {history written : List (Write α)}

theorem told (h : Changes store written store') (told : Told history store) :
    Told (history ++ written) store' := by
  cases h with
  | kept => rwa [List.append_nil]
  | made tells =>
    obtain rfl : history = [] := told
    exact tells
  | edited hi e => exact NodeStore.Tells.edit told hi e

theorem exists_extends {s : NodeStore α} (h : Changes (some s) written store') :
    ∃ s', store' = some s' ∧ s.Extends s' := by
  cases h with
  | kept => exact ⟨s, rfl, .refl s⟩
  | edited hi e => exact ⟨_, rfl, NodeStore.extends_edit hi e⟩

end Changes

namespace Forest

variable {α : Type} {f g f' : Forest α} {blank : α} {k : Nat}

/-- What an edit at the end of a path writes to a store. -/
def writesAt (f : Forest α) (k tree : Nat) (path : List Nat) (e : Edit α) : List (Write α) :=
  match f.handleAt? tree path with
  | some (.shared store i) => if store = k then e.writes i else []
  | _ => []

/-- What a move writes to a store. -/
def writes (blank : α) (f : Forest α) (k : Nat) : Move α → List (Write α)
  | .step .shared .make => if k = f.stores.size then [.add blank] else []
  | .step .shared (.makeShape breadth depth) =>
    if k = f.stores.size then List.replicate (RoseTree.ofShape blank breadth depth).size (.add blank) else []
  | .step _ (.setValue tree path value) => f.writesAt k tree path (.setValue value)
  | .step _ (.addChild tree path value) => f.writesAt k tree path (.addChild value)
  | .step _ (.copy source node target path) =>
    match f.cursor? source node with
    | some c => f.writesAt k target path (.graft c.subtree)
    | none => []
  | _ => []

/-- Moves lead from one forest to another, and write a history to a store. -/
inductive Records (blank : α) (k : Nat) (f : Forest α) : List (Write α) → Forest α → Prop
  | refl : Records blank k f [] f
  | move {g g' : Forest α} {history : List (Write α)} (records : Records blank k f history g)
      (move : Move α) (allowed : g.Allows move) (hg' : g.move? blank move = some g') :
      Records blank k f (history ++ g.writes blank k move) g'

/-! ## What one move changes -/

/-- An edit changes the store that its place is in, and writes to no other. -/
theorem changes_edit (f : Forest α) (k tree : Nat) (path : List Nat) (e : Edit α) :
    Changes f.stores[k]? (f.writesAt k tree path e) ((f.edit? tree path e).getD f).stores[k]? := by
  rw [edit?_eq_editAt?]
  cases hy : f.spot? tree path with
  | none =>
    have hwrites : f.writesAt k tree path e = [] := by simp [writesAt, handleAt?_eq_handleOf?, hy]
    rw [hwrites]
    exact .kept _
  | some y =>
    rw [Option.bind_some]
    cases y with
    | slot l i =>
      have hat : f.handleAt? tree path = some (.shared l i) := by
        rw [handleAt?_eq_handleOf?, hy]
        rfl
      obtain ⟨s, hs, hi⟩ := exists_store_of_handleAt? hat
      have hl : l < f.stores.size := (Array.getElem?_eq_some_iff.1 hs).1
      simp only [writesAt, hat, editAt?_slot hs hi, Option.getD_some]
      split
      · rename_i hlk
        subst hlk
        rw [hs, Array.getElem?_setIfInBounds_self_of_lt hl]
        exact .edited hi e
      · rename_i hlk
        rw [Array.getElem?_setIfInBounds_ne hlk]
        exact .kept _
    | branch h q =>
      obtain ⟨u, hu⟩ := exists_subtreeAt?_of_spot? hy
      have hwrites : f.writesAt k tree path e = [] := by
        simp [writesAt, handleAt?_eq_handleOf?, hy, handleOf?, hu]
      rw [hwrites]
      cases hf' : f.editAt? e (.branch h q) with
      | none => exact .kept _
      | some f' =>
        obtain ⟨_, _, _, _, rfl⟩ := editAt?_branch_eq_some_iff.1 hf'
        exact .kept _

theorem changes_addStore (f : Forest α) (k : Nat) {s : NodeStore α} {history : List (Write α)}
    (h : s.Tells history) :
    Changes f.stores[k]? (if k = f.stores.size then history else []) (f.addStore s).stores[k]? := by
  rw [addStore, Array.getElem?_push]
  split
  · rename_i hk
    rw [hk, Array.getElem?_eq_none (Nat.le_refl _)]
    exact .made h
  · exact .kept _

/-- Each move that is allowed changes a store by what it writes to it. -/
theorem changes_of_move? {move : Move α} (allowed : f.Allows move)
    (hf' : f.move? blank move = some f') :
    Changes f.stores[k]? (f.writes blank k move) f'.stores[k]? := by
  cases move with
  | hand tree path =>
    have hstores : f'.stores = f.stores := by
      simp only [move?] at hf'
      split at hf' <;> cases hf' <;> rfl
    rw [hstores]
    exact .kept _
  | step form step =>
    cases step with
    | make =>
      cases form with
      | shared =>
        cases hf'
        exact changes_addStore f k (NodeStore.tells_singleton blank)
      | owned =>
        cases hf'
        exact .kept _
    | makeShape breadth depth =>
      cases form with
      | shared =>
        cases hf'
        exact changes_addStore f k (NodeStore.tells_ofShape blank breadth depth)
      | owned =>
        cases hf'
        exact .kept _
    | setValue tree path v =>
      cases hf'
      cases form <;> exact changes_edit f k tree path (.setValue v)
    | addChild tree path v =>
      cases hf'
      cases form <;> exact changes_edit f k tree path (.addChild v)
    | copy source node target path =>
      obtain rfl := Option.some.inj ((move?_copy allowed).symm.trans hf')
      cases hc : f.cursor? source node with
      | none =>
        simp only [writes, hc]
        exact .kept _
      | some c =>
        simp only [writes, hc]
        exact changes_edit f k target path (.graft c.subtree)

/-! ## What a run of moves leaves -/

/-- Every run of moves writes a history. -/
theorem Leads.exists_records (leads : f.Leads blank f') (k : Nat) :
    ∃ history, f.Records blank k history f' := by
  induction leads with
  | refl => exact ⟨[], .refl⟩
  | move _ move allowed hg' ih =>
    obtain ⟨history, records⟩ := ih
    exact ⟨_, records.move move allowed hg'⟩

namespace Records

variable {history before after : List (Write α)}

theorem leads (records : f.Records blank k history f') : f.Leads blank f' := by
  induction records with
  | refl => exact .refl
  | move _ move allowed hg' ih => exact ih.move move allowed hg'

theorem trans (first : f.Records blank k before g) (next : g.Records blank k after f') :
    f.Records blank k (before ++ after) f' := by
  induction next with
  | refl => rwa [List.append_nil]
  | move _ move allowed hg' ih =>
    rw [← List.append_assoc]
    exact ih.move move allowed hg'

/-- What is written from the start on tells what a store is. -/
theorem told (records : Records blank k {} history f) : Told history f.stores[k]? := by
  induction records with
  | refl => rfl
  | move _ move allowed hg' ih => exact (changes_of_move? allowed hg').told ih

/-- A store that is there goes on to be there, and is only extended. -/
theorem exists_extends (records : f.Records blank k history f') {s : NodeStore α}
    (hs : f.stores[k]? = some s) : ∃ s', f'.stores[k]? = some s' ∧ s.Extends s' := by
  induction records with
  | refl => exact ⟨s, hs, .refl s⟩
  | move _ move allowed hg' ih =>
    obtain ⟨r, hr, hextends⟩ := ih
    have hchanges := changes_of_move? (k := k) allowed hg'
    rw [hr] at hchanges
    obtain ⟨s', hs', hnext⟩ := hchanges.exists_extends
    exact ⟨s', hs', hextends.trans hnext⟩

end Records

/-! ## Stores that go on -/

/-- What stays of a store `s` of a forest `f` while moves make `s'` of it, in `f'`. The history `before` is
what had been written to it, and `after` what the moves write to it. -/
structure Lasting (k : Nat) (before : List (Write α)) (f : Forest α) (s : NodeStore α)
    (after : List (Write α)) (f' : Forest α) (s' : NodeStore α) : Prop where
  /-- A handle stays a handle of the node with the same index. -/
  handle : ∀ h i : Nat, f.handles[h]? = some (.shared k i) → f'.handles[h]? = some (.shared k i)
  /-- A path leads to the node that it led to. -/
  path : ∀ (h x : Nat) (path : List Nat), f.handleAt? h path = some (.shared k x) →
    f'.handleAt? h path = some (.shared k x)
  /-- New children come behind the ones that were there. -/
  children : ∀ j, s.children j <+: s'.children j
  /-- There is a value for each node that has been added. -/
  length : s.allData.length = Write.added before ∧
    s'.allData.length = Write.added (before ++ after)
  /-- A value stays in its place, unless its node gets another one. -/
  kept : ∀ n v, s.allData[n]? = some v → (∀ u, .set n u ∉ after) → s'.allData[n]? = some v
  /-- The value in a place is the last one that was written to the node that was added there. -/
  last : ∀ n v, s'.allData[n]? = some v ↔ Write.Last (before ++ after) n v

/-- A forest is another but for one of its stores. -/
structure ReplacesStore (f : Forest α) (k : Nat) (s : NodeStore α) (g : Forest α) : Prop where
  store : g.stores[k]? = some s
  others : ∀ l, l ≠ k → g.stores[l]? = f.stores[l]?
  handles : g.handles = f.handles

/-- How a store of a forest can go on. -/
structure Stable (blank : α) (f : Forest α) (k : Nat) (s : NodeStore α) : Prop where
  /-- It has a history, and every run of moves goes on with it. -/
  recorded : (∃ before, Records blank k {} before f) ∧
    ∀ f', f.Leads blank f' → ∃ after, f.Records blank k after f'
  /-- Over every run of moves, its nodes and the paths to them last. -/
  lasting : ∀ before after f', Records blank k {} before f → f.Records blank k after f' →
    ∃ s', f'.stores[k]? = some s' ∧ Lasting k before f s after f' s'
  /-- To set the value of a node changes this value and nothing else. -/
  setValue : ∀ (form : Form) (h x : Nat) (path : List Nat) (v : α),
    f.handleAt? h path = some (.shared k x) →
    ∃ g r, f.move? blank (.step form (.setValue h path v)) = some g ∧ f.ReplacesStore k r g ∧
      s.GrownAt x r ∧ r.value? x = some v ∧ r.children x = s.children x ∧ r.size = s.size
  /-- To add a child to a node changes the children of this node and nothing else: they get a last one. -/
  addChild : ∀ (form : Form) (h x : Nat) (path : List Nat) (v : α),
    f.handleAt? h path = some (.shared k x) →
    ∃ g r, f.move? blank (.step form (.addChild h path v)) = some g ∧ f.ReplacesStore k r g ∧
      s.GrownAt x r ∧ r.value? x = s.value? x ∧ r.children x = s.children x ++ [s.size] ∧
      r.size = s.size + 1 ∧ r.value? s.size = some v

/-- An edit at a node of a store is made there. -/
theorem exists_edit?_of_handleAt? {h x : Nat} {path : List Nat} {s : NodeStore α}
    (hx : f.handleAt? h path = some (.shared k x)) (hs : f.stores[k]? = some s) (e : Edit α) :
    x < s.size ∧ ∃ g, f.edit? h path e = some g ∧ f.ReplacesStore k (s.edit x e) g := by
  obtain ⟨r, i, hh, hr, hi⟩ := handleAt?_eq_shared_iff.1 hx
  obtain rfl : s = r := Option.some.inj (hs.symm.trans hr)
  have hk : k < f.stores.size := (Array.getElem?_eq_some_iff.1 hs).1
  refine ⟨NodeStore.lt_size_of_descend? hi,
    { f with stores := f.stores.setIfInBounds k (s.edit x e) }, ?_, ?_, ?_, rfl⟩
  · simp [edit?, hh, hs, hi]
  · exact Array.getElem?_setIfInBounds_self_of_lt hk
  · intro l hl
    exact Array.getElem?_setIfInBounds_ne (Ne.symm hl)

theorem Records.lasting {before after : List (Write α)} (sound : f.Sound)
    (made : Records blank k {} before f) (later : f.Records blank k after f') {s : NodeStore α}
    (hs : f.stores[k]? = some s) :
    ∃ s', f'.stores[k]? = some s' ∧ Lasting k before f s after f' s' := by
  obtain ⟨s', hs', hextends⟩ := later.exists_extends hs
  have hhandles : f.KeepsHandles f' := (sound.leads later.leads).2
  have htells : s.Tells before := by
    have htold := made.told
    rwa [hs] at htold
  have htells' : s'.Tells (before ++ after) := by
    have htold := (made.trans later).told
    rwa [hs'] at htold
  refine ⟨s', hs', {
    handle := fun h i => hhandles h k i
    path := ?_
    children := hextends.children_prefix
    length := by
      rw [NodeStore.length_allData, NodeStore.length_allData]
      exact ⟨htells.size, htells'.size⟩
    kept := ?_
    last := fun n v => by rw [NodeStore.getElem?_allData, htells'.value] }⟩
  · intro h x path hx
    obtain ⟨r, i, hh, hr, hi⟩ := handleAt?_eq_shared_iff.1 hx
    obtain rfl : s = r := Option.some.inj (hs.symm.trans hr)
    exact handleAt?_eq_shared_iff.2 ⟨s', i, hhandles h k i hh, hs', hextends.descend? hi⟩
  · intro n v hv hafter
    rw [NodeStore.getElem?_allData, htells.value] at hv
    rw [NodeStore.getElem?_allData, htells'.value]
    exact hv.append hafter

/-- **A handle of a node lasts.** Whatever is done through whatever handles, the node of a handle keeps its
index, every path from it goes on to lead where it led, children and values come behind the ones that are
there, and the value of a node is the one that was written to it last. A value that is set and a child that is
added change nothing at the other nodes. -/
theorem Reached.handles_last (reached : f.Reached blank) {s : NodeStore α}
    (hs : f.stores[k]? = some s) : f.Stable blank k s where
  recorded := ⟨Leads.exists_records reached k, fun f' leads => leads.exists_records k⟩
  lasting before after f' made later := made.lasting reached.sound later hs
  setValue form h x path v hx := by
    obtain ⟨hlt, g, hg, hreplaces⟩ := exists_edit?_of_handleAt? hx hs (.setValue v)
    refine ⟨g, s.setValue x v, by simp [move?, perform?, hg], hreplaces, NodeStore.grownAt_setValue s x v, ?_,
      NodeStore.children_setValue s x x v, NodeStore.size_setValue s x v⟩
    rw [NodeStore.value?_setValue, if_pos ⟨rfl, hlt⟩]
  addChild form h x path v hx := by
    obtain ⟨hlt, g, hg, hreplaces⟩ := exists_edit?_of_handleAt? hx hs (.addChild v)
    refine ⟨g, s.addChild x v, by simp [move?, perform?, hg], hreplaces, NodeStore.grownAt_addChild hlt v, ?_,
      ?_, NodeStore.size_addChild s hlt v, ?_⟩
    · rw [NodeStore.value?_addChild s hlt, if_neg (Nat.ne_of_lt hlt)]
    · rw [NodeStore.children_addChild s hlt, if_pos rfl]
    · rw [NodeStore.value?_addChild s hlt, if_pos rfl]

theorem Reached.handles_last_sample :
    (Reached.sampleHanded sampleStore).Reached 0 ∧
      (Reached.sampleHanded sampleStore).stores[0]? = some sampleStore ∧
      (Reached.sampleHanded sampleStore).Stable 0 0 sampleStore :=
  ⟨reached_sampleHanded, rfl, handles_last reached_sampleHanded rfl⟩

end Forest

end FrontEnd
