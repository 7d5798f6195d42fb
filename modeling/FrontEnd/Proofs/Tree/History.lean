import FrontEnd.Proofs.Tree.Built
import FrontEnd.Proofs.Tree.Fresh
import FrontEnd.Proofs.Tree.Represents

/-! # What has been written to a store

What is written to a store is a history: nodes are added, and nodes that are there get other values. The nodes
are numbered as they were added, and the value of a node is the one that the history gave it last. An edit
continues the history of a store (`NodeStore.Tells.edit`), and extends the store at its end.
-/

namespace FrontEnd

/-! ## Histories -/

/-- Something that is written to a store: a new node, or another value for the node with a number. -/
inductive Write (α : Type) where
  | add (value : α)
  | set (node : Nat) (value : α)

namespace Write

variable {α : Type} {before after : List (Write α)} {n : Nat} {v : α}

/-- The number of nodes that are added. -/
def added : List (Write α) → Nat
  | [] => 0
  | .add _ :: history => added history + 1
  | .set _ _ :: history => added history

theorem added_append (before after : List (Write α)) :
    added (before ++ after) = added before + added after := by
  induction before with
  | nil => simp [added]
  | cons w before ih => cases w <;> simp [added, ih, Nat.add_right_comm]

/-- A write behind some others gives a value to the node with a number: it adds the node or sets its value. -/
def Gives (before : List (Write α)) (n : Nat) (v : α) (w : Write α) : Prop :=
  w = .set n v ∨ w = .add v ∧ added before = n

/-- The last value that is written to the node with a number. -/
def Last (history : List (Write α)) (n : Nat) (v : α) : Prop :=
  ∃ before w after, history = before ++ w :: after ∧ Gives before n v w ∧ ∀ u, .set n u ∉ after

theorem not_last_nil : ¬ Last [] n v := by
  rintro ⟨before, w, after, h, -⟩
  exact List.append_ne_nil_of_right_ne_nil before (List.cons_ne_nil w after) h.symm

/-- A value stays the last one as long as its node gets no other. -/
theorem Last.append (h : Last before n v) (hafter : ∀ u, .set n u ∉ after) :
    Last (before ++ after) n v := by
  obtain ⟨first, w, rest, rfl, hw, hrest⟩ := h
  refine ⟨first, w, rest ++ after, by simp, hw, fun u hu => ?_⟩
  rcases List.mem_append.1 hu with hu | hu
  · exact hrest u hu
  · exact hafter u hu

theorem last_concat (history : List (Write α)) (w : Write α) :
    Last (history ++ [w]) n v ↔ Gives history n v w ∨ Last history n v ∧ ∀ u, w ≠ .set n u := by
  constructor
  · rintro ⟨before, x, after, h, hx, hafter⟩
    rcases List.eq_nil_or_concat after with rfl | ⟨rest, y, rfl⟩
    · obtain ⟨rfl, hw⟩ := List.append_inj' h rfl
      obtain rfl := List.singleton_inj.1 hw
      exact .inl hx
    · rw [List.concat_eq_append] at h hafter
      rw [← List.cons_append, ← List.append_assoc] at h
      obtain ⟨rfl, hw⟩ := List.append_inj' h rfl
      obtain rfl := List.singleton_inj.1 hw
      refine .inr ⟨⟨before, x, rest, rfl, hx, fun u hu => hafter u ?_⟩, fun u hu => hafter u ?_⟩
      · exact List.mem_append_left _ hu
      · rw [hu]
        exact List.mem_append_right _ List.mem_cons_self
  · rintro (hw | ⟨hlast, hw⟩)
    · exact ⟨history, w, [], rfl, hw, fun u => List.not_mem_nil⟩
    · exact hlast.append fun u hu => hw u (List.mem_singleton.1 hu).symm

end Write

/-- What an edit at a node of a store writes to it. The values of a graft come in their pre-order. -/
def Edit.writes {α : Type} (i : Nat) : Edit α → List (Write α)
  | .setValue value => [.set i value]
  | .addChild value => [.add value]
  | .graft tree => tree.preorder.map .add

namespace NodeStore

variable {α : Type} {s s' : NodeStore α} {history : List (Write α)}

/-- A store is what a history tells: it has the nodes that were added, and each has the value that it was
given last. -/
structure Tells (history : List (Write α)) (s : NodeStore α) : Prop where
  size : s.size = Write.added history
  value : ∀ n v, s.value? n = some v ↔ Write.Last history n v

theorem tells_singleton (v : α) : Tells [.add v] (singleton v) where
  size := rfl
  value n u := by
    have hlast := Write.last_concat (n := n) (v := u) [] (.add v)
    rw [List.nil_append] at hlast
    rw [hlast]
    cases n <;> simp [Write.Gives, Write.not_last_nil, Write.added, value?, singleton]

namespace Tells

theorem addChild (h : Tells history s) {i : Nat} (hi : i < s.size) (v : α) :
    Tells (history ++ [.add v]) (s.addChild i v) where
  size := by
    rw [size_addChild s hi, h.size, Write.added_append]
    rfl
  value n u := by
    have hgives : Write.Gives history n u (.add v) ↔ n = s.size ∧ v = u := by
      simp [Write.Gives, h.size, and_comm, eq_comm]
    rw [value?_addChild s hi, Write.last_concat, hgives, ← h.value]
    by_cases hn : n = s.size
    · -- There was no such node before.
      simp [hn, value?_of_size_le (Nat.le_refl s.size)]
    · simp [hn]

theorem setValue (h : Tells history s) {i : Nat} (hi : i < s.size) (v : α) :
    Tells (history ++ [.set i v]) (s.setValue i v) where
  size := by
    rw [size_setValue, h.size, Write.added_append]
    rfl
  value n u := by
    have hgives : Write.Gives history n u (.set i v) ↔ n = i ∧ v = u := by
      simp [Write.Gives, eq_comm]
    rw [value?_setValue, Write.last_concat, hgives, ← h.value]
    by_cases hn : n = i
    · simp [hn, hi]
    · simp [hn, Ne.symm hn]

mutual

theorem graft : ∀ (t : RoseTree α) {s : NodeStore α} {history : List (Write α)} {i : Nat},
    Tells history s → i < s.size → Tells (history ++ t.preorder.map .add) (s.graft i t)
  | .node v ts, s, history, i, h, hi => by
    have hrest := graftAll ts (h.addChild hi v) (lt_size_addChild hi v)
    rwa [List.append_assoc, List.singleton_append] at hrest

theorem graftAll : ∀ (ts : List (RoseTree α)) {s : NodeStore α} {history : List (Write α)} {i : Nat},
    Tells history s → i < s.size →
      Tells (history ++ (RoseTree.preorderAll ts).map .add) (s.graftAll i ts)
  | [], s, history, i, h, _ => by
    rw [RoseTree.preorderAll, List.map_nil, List.append_nil]
    exact h
  | t :: ts, s, history, i, h, hi => by
    have hrest := graftAll ts (graft t h hi) ((graftedAt_graft t s hi).lt_size hi)
    rwa [List.append_assoc, ← List.map_append] at hrest

end

theorem edit (h : Tells history s) {i : Nat} (hi : i < s.size) (e : Edit α) :
    Tells (history ++ e.writes i) (s.edit i e) := by
  cases e with
  | setValue v => exact h.setValue hi v
  | addChild v => exact h.addChild hi v
  | graft tree => exact graft tree h hi

end Tells

/-- A filled tree has been added node by node, all of them with the same value. -/
theorem tells_ofShape (v : α) (breadth depth : Nat) :
    Tells (List.replicate (RoseTree.ofShape v breadth depth).size (.add v)) (ofShape v breadth depth) := by
  have hfill : Tells (List.replicate (ofShape v breadth depth).size (.add v)) (ofShape v breadth depth) := by
    refine fill_of_addChild (P := fun s => Tells (List.replicate s.size (.add v)) s) ?_ breadth depth
      (tells_singleton v) Nat.zero_lt_one
    intro s i h hi
    rw [size_addChild s hi, List.replicate_succ']
    exact h.addChild hi v
  rwa [(represents_ofShape v breadth depth).size_eq] at hfill

/-! ## An edit extends a store -/

theorem extends_edit {i : Nat} (hi : i < s.size) (e : Edit α) : s.Extends (s.edit i e) := by
  cases e with
  | setValue v =>
    refine ⟨Nat.le_of_eq (size_setValue s i v).symm, fun h => ?_⟩
    rw [edit, child?_eq_getElem?, children_setValue, ← child?_eq_getElem?, h]
  | addChild v => exact extends_of_graftedAt (graftedAt_addChild hi v)
  | graft tree => exact extends_of_graftedAt (graftedAt_graft tree s hi)

end NodeStore

end FrontEnd
