import FrontEnd.Proofs.Tree.Growth

/-! # Copies within a store, and filled trees

The bulk operations are loops that read the children of a node again at every turn, while the store grows.
The loop of a copy keeps the source and everything below it as it was, so that what it reads next is what
the source showed at the start. The loop of a fill turns the children of a node, one after another, from
single nodes into filled trees.
-/

namespace FrontEnd

namespace NodeStore

variable {α : Type} {s : NodeStore α}

/-! ## Copies within a store -/

theorem child?_last_addChild {i : Nat} (hi : i < s.size) (v : α) :
    (s.addChild i v).child? i ((s.addChild i v).childCount i - 1) = some s.size := by
  rw [child?_eq_getElem?, childCount_eq_length, children_addChild s hi, if_pos rfl]
  simp

mutual

/-- A copy up to a bound is a graft of what the source shows, if the source lies before the bound with all
that is below it, and the target does not lie below the source. The loop over the children carries the same
statement for the children that are left. -/
theorem copyUpTo?_eq_graft : ∀ (t : RoseTree α) (s : NodeStore α) {bound i j : Nat}, s.Shows i t →
    (∀ x, s.Below i x → x < bound) → j < s.size → ¬ s.Below i j →
    s.copyUpTo? bound i j = some (s.graft j t)
  | .node v ts, s, bound, i, j, hi, hbound, hj, hapart => by
    have hgrown := grownAt_addChild hj v
    have hshown : (s.addChild j v).Shows i (.node v ts) := hgrown.shows hi hapart
    have hcount : (s.addChild j v).childCount i = ts.length := by
      rw [childCount_eq_length]
      exact (showsAll_iff.1 hshown.2).1
    have hloop := copyChildren_eq_graftAll ts (s.addChild j v) 0 hshown.lt_size
      (fun x hx => hbound x (hgrown.below hi.lt_size hapart hx)) (lt_size_addChild hj v)
      (hgrown.not_below_new hi.lt_size hapart (Nat.le_refl s.size)) hshown.2
    rw [copyUpTo?_eq, if_pos (hbound i (.refl hi.lt_size)), hi.1]
    simp only [Option.bind_eq_bind, Option.bind_some, child?_last_addChild hj v, hcount,
      List.range_eq_range']
    exact hloop

theorem copyChildren_eq_graftAll : ∀ (ts : List (RoseTree α)) (s : NodeStore α) {bound i j : Nat}
    (k : Nat), i < s.size → (∀ x, s.Below i x → x < bound) → j < s.size → ¬ s.Below i j →
    s.ShowsAll ((s.children i).drop k) ts →
    (List.range' k ts.length).foldlM (fun s k =>
      match s.child? i k with
      | some child => s.copyUpTo? bound child j
      | none => some s) s = some (s.graftAll j ts)
  | [], s, bound, i, j, k, _, _, _, _, _ => rfl
  | t :: ts, s, bound, i, j, k, hi, hbound, hj, hapart, hshows => by
    cases hdrop : (s.children i).drop k with
    | nil => rw [hdrop] at hshows; exact hshows.elim
    | cons c rest =>
      rw [hdrop] at hshows
      have hc : s.child? i k = some c := by
        have h0 : ((s.children i).drop k)[0]? = some c := by rw [hdrop]; rfl
        rw [child?_eq_getElem?]
        simpa using h0
      have hrest : (s.children i).drop (k + 1) = rest := by
        rw [← List.tail_drop, hdrop, List.tail_cons]
      have hcopy : s.copyUpTo? bound c j = some (s.graft j t) :=
        copyUpTo?_eq_graft t s hshows.1 (fun x hx => hbound x (hx.of_child? hc)) hj
          (not_below_of_mem_children hapart (mem_children_of_child? hc))
      -- The graft is made below the target, so the source and its other children are as before.
      have hgraft := graftedAt_graft t s hj
      have hkept : (s.graft j t).children i = s.children i :=
        hgraft.grown.children i hi (ne_of_not_below hi hapart)
      have hrest' : (s.graft j t).ShowsAll (((s.graft j t).children i).drop (k + 1)) ts := by
        rw [hkept, hrest]
        refine hgraft.grown.showsAll hshows.2 fun d hd => ?_
        have hd' : d ∈ (s.children i).drop k := by rw [hdrop]; exact List.mem_cons_of_mem c hd
        exact not_below_of_mem_children hapart (List.mem_of_mem_drop hd')
      have hloop := copyChildren_eq_graftAll ts (s.graft j t) (k + 1)
        (Nat.lt_of_lt_of_le hi hgraft.grown.size_le)
        (fun x hx => hbound x (hgraft.grown.below hi hapart hx)) (hgraft.lt_size hj)
        (hgraft.grown.not_below hi hapart) hrest'
      rw [List.length_cons, List.range'_succ, List.foldlM_cons, hc]
      simp only [hcopy, Option.bind_eq_bind, Option.bind_some]
      exact hloop

end

/-- **A copy within a store is a graft of what the source shows**, if the target does not lie below the
source. -/
theorem copyWithin?_eq_graft {t : RoseTree α} {i j : Nat} (hi : s.Shows i t) (hj : j < s.size)
    (hapart : ¬ s.Below i j) : s.copyWithin? i j = some (s.graft j t) :=
  copyUpTo?_eq_graft t s hi (fun _ ⟨_, hpath⟩ => lt_size_of_descend? hpath) hj hapart

end NodeStore

/-! ## Filled trees -/

namespace RoseTree

variable {α : Type}

theorem ofShape_succ (value : α) (breadth depth : Nat) :
    ofShape value breadth (depth + 1)
      = .node value (List.replicate breadth (ofShape value breadth depth)) := by
  simp [ofShape, fill, leaf, children, RoseTree.value]

theorem value_ofShape (value : α) (breadth depth : Nat) : (ofShape value breadth depth).value = value := by
  cases depth with
  | zero => rfl
  | succ depth => rw [ofShape_succ]; rfl

end RoseTree

namespace NodeStore

variable {α : Type} {s : NodeStore α} {value : α} {breadth depth i : Nat}

theorem graftedAt_repeat_addChild (hi : i < s.size) (value : α) (n : Nat) :
    s.GraftedAt i (List.replicate n (.leaf value)) (Nat.repeat (fun s => s.addChild i value) n s) := by
  induction n with
  | zero => exact .refl s i
  | succ n ih =>
    rw [List.replicate_succ', Nat.repeat]
    exact ih.trans (graftedAt_addChild (ih.lt_size hi) value)

/-- The loop over the children of a node that has got them as single nodes: the ones it has passed are
filled, the others are as they were. -/
theorem graftedAt_fillChildren (hi : i < s.size) (unique : s.UniqueParents) (hleaf : s.children i = [])
    (hfill : ∀ (r : NodeStore α) (c : Nat), c < r.size → r.UniqueParents → r.children c = [] →
      r.GraftedAt c (RoseTree.ofShape value breadth depth).children (r.fill value breadth depth c))
    (n k : Nat) (r : NodeStore α)
    (h : s.GraftedAt i
      (List.replicate k (RoseTree.ofShape value breadth depth) ++ List.replicate n (.leaf value)) r) :
    s.GraftedAt i (List.replicate (k + n) (RoseTree.ofShape value breadth depth))
      ((List.range' k n).foldl (fun s k =>
        match s.child? i k with
        | some child => fill value breadth depth s child
        | none => s) r) := by
  induction n generalizing k r with
  | zero => simpa using h
  | succ n ih =>
    rw [List.replicate_succ] at h
    obtain ⟨c, hc, hshows⟩ := h.exists_child
    have hempty : r.children c = [] := (shows_iff.1 hshows).2.nil_of_nil
    have hfilled := hfill r c (lt_size_of_child? hc) (h.unique unique) hempty
    -- This turn makes the tree of the child out of a single node.
    have hturn := h.trans_child hi unique hc hfilled
    have htree : RoseTree.node (RoseTree.leaf value).value
        ((RoseTree.leaf value).children ++ (RoseTree.ofShape value breadth depth).children)
          = RoseTree.ofShape value breadth depth := by
      conv => rhs; rw [RoseTree.eta (RoseTree.ofShape value breadth depth), RoseTree.value_ofShape]
      rfl
    rw [htree, ← List.singleton_append, ← List.append_assoc, ← List.replicate_succ'] at hturn
    have hplace : r.child? i k = some c := by simpa [hleaf] using hc
    rw [List.range'_succ, List.foldl_cons, hplace, Nat.add_comm n, ← Nat.add_assoc]
    exact ih (k + 1) _ hturn

/-- **Filling a node without children puts below it what its shape has below the root.** -/
theorem graftedAt_fill (value : α) (breadth depth : Nat) {s : NodeStore α} {i : Nat} (hi : i < s.size)
    (unique : s.UniqueParents) (hleaf : s.children i = []) :
    s.GraftedAt i (RoseTree.ofShape value breadth depth).children (s.fill value breadth depth i) := by
  induction depth generalizing s i with
  | zero => exact .refl s i
  | succ depth ih =>
    have hleaves := graftedAt_repeat_addChild hi value breadth
    have hloop := graftedAt_fillChildren hi unique hleaf (fun r c hc hr hempty => ih hc hr hempty)
      breadth 0 _ (by simpa using hleaves)
    rw [Nat.zero_add] at hloop
    rw [RoseTree.ofShape_succ, fill, List.range_eq_range']
    exact hloop

end NodeStore

end FrontEnd
