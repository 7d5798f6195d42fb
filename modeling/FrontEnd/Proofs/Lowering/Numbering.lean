import FrontEnd.Proofs.Lowering.Outcome

/-!
# Identifiers in a row

A source of identifiers gives out `ids.nth 0, ids.nth 1, …`, which are the numbers from `ids.next` on as
long as they fit into a word (`toNat_nth`). A run of declarations that takes them leaves its locations in a
symbol table (`SymbolTable.record`); `find?_record` says what is found there afterwards, and `find?_extend`
what is found once one table has been added to another.
-/

namespace FrontEnd

/-! ## Sources of identifiers -/

namespace IdSource

/-- The identifier that is given out after `k` others. -/
def nth (ids : IdSource) (k : Nat) : UInt64 := ids.next + .ofNat k

/-- The source after `k` identifiers have been taken. -/
def skip (ids : IdSource) (k : Nat) : IdSource := ⟨ids.nth k⟩

@[simp] theorem nth_zero (ids : IdSource) : ids.nth 0 = ids.next := by simp [nth]

@[simp] theorem skip_zero (ids : IdSource) : ids.skip 0 = ids := by simp [skip]

theorem skip_one (ids : IdSource) : ids.skip 1 = ids.advance := by simp [skip, advance, nth]

@[simp] theorem nth_skip (ids : IdSource) (j k : Nat) : (ids.skip j).nth k = ids.nth (j + k) := by
  simp [skip, nth, UInt64.add_assoc]

@[simp] theorem skip_skip (ids : IdSource) (j k : Nat) : (ids.skip j).skip k = ids.skip (j + k) := by
  rw [skip, nth_skip, skip]

/-- The identifiers are counted in words, so after the last word comes zero. -/
theorem toNat_nth_eq_mod (ids : IdSource) (k : Nat) :
    (ids.nth k).toNat = (ids.next.toNat + k) % UInt64.size := by
  rw [nth, UInt64.toNat_add, UInt64.toNat_ofNat']
  exact Nat.add_mod_mod ids.next.toNat k UInt64.size

theorem toNat_nth {ids : IdSource} {k : Nat} (hk : ids.next.toNat + k < UInt64.size) :
    (ids.nth k).toNat = ids.next.toNat + k := by
  rw [toNat_nth_eq_mod, Nat.mod_eq_of_lt hk]

theorem map_toNat_nth {ids : IdSource} {k : Nat} (hroom : ids.next.toNat + k < UInt64.size) :
    ((List.range k).map ids.nth).map UInt64.toNat = List.range' ids.next.toNat k := by
  apply List.ext_getElem
  · simp
  · intro i hi _
    rw [List.length_map, List.length_map, List.length_range] at hi
    simp only [List.getElem_map, List.getElem_range, List.getElem_range', Nat.one_mul]
    exact toNat_nth (by omega)

/-- The next `k` identifiers lie between where the source is and where it will be. -/
theorem toNat_of_mem {ids : IdSource} {k : Nat} {id : UInt64} (hid : id ∈ (List.range k).map ids.nth)
    (hroom : ids.next.toNat + k < UInt64.size) :
    ids.next.toNat ≤ id.toNat ∧ id.toNat < ids.next.toNat + k := by
  obtain ⟨i, hi, rfl⟩ := List.mem_map.mp hid
  rw [List.mem_range] at hi
  rw [toNat_nth (by omega)]
  omega

end IdSource

/-! ## Symbol tables -/

theorem lookup_eq_none_of_lt {id : UInt64} {entries : List (UInt64 × Location)}
    (h : ∀ e ∈ entries, id < e.1) : entries.lookup id = none := by
  rw [List.lookup_eq_none_iff]
  intro e he
  have hne : id ≠ e.1 := UInt64.ne_of_lt (h e he)
  simpa using hne

theorem insertEntry_of_lt {id : UInt64} {entries : List (UInt64 × Location)} (location : Location)
    (h : ∀ e ∈ entries, e.1 < id) : insertEntry id location entries = entries ++ [(id, location)] := by
  induction entries with
  | nil => rfl
  | cons entry rest ih =>
    have hlt : entry.1 < id := h entry List.mem_cons_self
    have hle : ¬ id < entry.1 := fun hgt => UInt64.lt_irrefl _ (UInt64.lt_trans hlt hgt)
    have hne : ¬ id = entry.1 := fun heq => UInt64.lt_irrefl _ (heq ▸ hlt)
    rw [insertEntry, if_neg hle, if_neg hne, ih fun e he => h e (List.mem_cons_of_mem _ he)]
    rfl

theorem find?_foldl_insert {entries : List (UInt64 × Location)}
    (h : entries.Pairwise fun a b => a.1 < b.1) (t : SymbolTable) (k : UInt64) :
    (entries.foldl (fun t entry => t.insert entry.1 entry.2) t).find? k
      = (entries.lookup k).or (t.find? k) := by
  induction entries generalizing t with
  | nil => simp
  | cons entry rest ih =>
    obtain ⟨hlt, hrest⟩ := List.pairwise_cons.mp h
    rw [List.foldl_cons, ih hrest, SymbolTable.find?_insert, List.lookup_cons]
    by_cases hk : k = entry.1
    · subst hk
      simp [lookup_eq_none_of_lt hlt]
    · have hne : (k == entry.1) = false := beq_eq_false_iff_ne.mpr hk
      rw [if_neg hk, hne]

/-- In entries in the order of their identifiers, what is found is what is there. -/
theorem lookup_eq_some_iff_mem {entries : List (UInt64 × Location)}
    (h : entries.Pairwise fun a b => a.1 < b.1) {k : UInt64} {location : Location} :
    entries.lookup k = some location ↔ (k, location) ∈ entries := by
  induction entries with
  | nil => simp
  | cons entry rest ih =>
    obtain ⟨hlt, hrest⟩ := List.pairwise_cons.mp h
    rw [List.lookup_cons, List.mem_cons]
    by_cases hk : k = entry.1
    · subst hk
      have hnot : (entry.1, location) ∉ rest := fun hmem =>
        UInt64.lt_irrefl entry.1 (hlt (entry.1, location) hmem)
      simp [hnot, Prod.ext_iff, eq_comm]
    · have hne : (k == entry.1) = false := beq_eq_false_iff_ne.mpr hk
      rw [hne, ih hrest]
      simp [Prod.ext_iff, hk]

namespace SymbolTable

/-- Tables with the same bindings are the same. -/
theorem eq_of_find?_eq {t u : SymbolTable} (h : ∀ k, t.find? k = u.find? k) : t = u := by
  obtain ⟨entries, hsorted⟩ := t
  obtain ⟨others, hsorted'⟩ := u
  have hnodup : entries.Nodup := hsorted.imp fun hlt heq => UInt64.ne_of_lt hlt (congrArg Prod.fst heq)
  have hnodup' : others.Nodup := hsorted'.imp fun hlt heq => UInt64.ne_of_lt hlt (congrArg Prod.fst heq)
  have hperm : entries.Perm others := by
    rw [List.perm_ext_iff_of_nodup hnodup hnodup']
    intro e
    rw [← lookup_eq_some_iff_mem hsorted, ← lookup_eq_some_iff_mem hsorted']
    exact iff_of_eq (congrArg (· = some e.2) (h e.1))
  obtain rfl : entries = others :=
    hperm.eq_of_pairwise (fun a b _ _ hab hba => absurd (UInt64.lt_trans hab hba) (UInt64.lt_irrefl _))
      hsorted hsorted'
  rfl

/-- What is added to a table hides what was there. -/
theorem find?_extend (t u : SymbolTable) (k : UInt64) :
    (t.extend u).find? k = (u.find? k).or (t.find? k) :=
  find?_foldl_insert u.sorted t k

/-- The table after identifiers have been bound to locations one after the other. -/
def record (t : SymbolTable) (ids : IdSource) : List Location → SymbolTable
  | [] => t
  | location :: rest => (t.insert ids.next location).record ids.advance rest

theorem record_append (t : SymbolTable) (ids : IdSource) (ls ms : List Location) :
    t.record ids (ls ++ ms) = (t.record ids ls).record (ids.skip ls.length) ms := by
  induction ls generalizing t ids with
  | nil => simp [record]
  | cons l ls ih =>
    rw [List.cons_append, record, ih, record, ← ids.skip_one, IdSource.skip_skip, List.length_cons,
      Nat.add_comm]

/-- Every identifier of the run is bound to its own location, and no other one has changed. -/
theorem find?_record (t : SymbolTable) {ids : IdSource} {ls : List Location}
    (hroom : ids.next.toNat + ls.length < UInt64.size) (k : UInt64) :
    (t.record ids ls).find? k
      = if ids.next ≤ k then (ls[k.toNat - ids.next.toNat]?).or (t.find? k) else t.find? k := by
  induction ls generalizing t ids with
  | nil => simp [record]
  | cons l ls ih =>
    rw [List.length_cons] at hroom
    have hnext : ids.advance.next.toNat = ids.next.toNat + 1 := by
      rw [← ids.skip_one]
      exact IdSource.toNat_nth (by omega)
    rw [record, ih _ (by omega), find?_insert, hnext]
    simp only [UInt64.le_iff_toNat_le, ← UInt64.toNat_inj, hnext]
    rcases Nat.lt_trichotomy k.toNat ids.next.toNat with hlt | heq | hgt
    · rw [if_neg (by omega), if_neg (by omega), if_neg (by omega)]
    · rw [if_neg (by omega), if_pos heq, if_pos (by omega), heq, Nat.sub_self]
      rfl
    · obtain ⟨d, hd⟩ : ∃ d, k.toNat = ids.next.toNat + 1 + d := ⟨k.toNat - (ids.next.toNat + 1), by omega⟩
      rw [if_pos (by omega), if_neg (by omega), if_pos (by omega), hd, Nat.add_sub_cancel_left,
        show ids.next.toNat + 1 + d - ids.next.toNat = d + 1 by omega, List.getElem?_cons_succ]

/-- Identifiers beyond those of a table are recorded behind them. -/
theorem entries_record (t : SymbolTable) {ids : IdSource} {ls : List Location}
    (hroom : ids.next.toNat + ls.length < UInt64.size) (hbeyond : ∀ e ∈ t.entries, e.1 < ids.next) :
    (t.record ids ls).entries = t.entries ++ ls.mapIdx fun k location => (ids.nth k, location) := by
  induction ls generalizing t ids with
  | nil => simp [record]
  | cons l ls ih =>
    rw [List.length_cons] at hroom
    have hnext : ids.advance.next.toNat = ids.next.toNat + 1 := by
      rw [← ids.skip_one]
      exact IdSource.toNat_nth (by omega)
    have hentries : (t.insert ids.next l).entries = t.entries ++ [(ids.next, l)] :=
      insertEntry_of_lt l hbeyond
    have hbeyond' : ∀ e ∈ (t.insert ids.next l).entries, e.1 < ids.advance.next := by
      intro e he
      rw [UInt64.lt_iff_toNat_lt, hnext]
      rw [hentries, List.mem_append, List.mem_singleton] at he
      rcases he with he | rfl
      · have := UInt64.lt_iff_toNat_lt.mp (hbeyond e he)
        omega
      · exact Nat.lt_succ_self _
    rw [record, ih _ (by omega) hbeyond', hentries, List.append_assoc, List.mapIdx_cons, ← ids.skip_one]
    simp only [IdSource.nth_skip, IdSource.nth_zero, Nat.add_comm, List.singleton_append]

/-- A table with identifiers beyond those of another one goes behind it. -/
theorem entries_extend (t u : SymbolTable)
    (hbeyond : ∀ e ∈ t.entries, ∀ f ∈ u.entries, e.1 < f.1) :
    (t.extend u).entries = t.entries ++ u.entries := by
  obtain ⟨entries, hsorted⟩ := u
  simp only [extend]
  induction entries generalizing t with
  | nil => simp
  | cons entry rest ih =>
    obtain ⟨hlt, hrest⟩ := List.pairwise_cons.mp hsorted
    have hentries : (t.insert entry.1 entry.2).entries = t.entries ++ [entry] :=
      insertEntry_of_lt entry.2 fun e he => hbeyond e he entry List.mem_cons_self
    rw [List.foldl_cons, ih _ hrest, hentries, List.append_assoc, List.singleton_append]
    intro e he f hf
    rw [hentries, List.mem_append, List.mem_singleton] at he
    rcases he with he | rfl
    · exact hbeyond e he f (List.mem_cons_of_mem _ hf)
    · exact hlt f hf

/-- What has been recorded hides what the table held before. -/
theorem find?_record_eq_or (t : SymbolTable) (ids : IdSource) (ls : List Location) (k : UInt64) :
    (t.record ids ls).find? k = ((record .empty ids ls).find? k).or (t.find? k) := by
  induction ls generalizing t ids with
  | nil => rfl
  | cons l ls ih =>
    rw [record, ih, record, ih (SymbolTable.insert .empty ids.next l), Option.or_assoc, find?_insert,
      find?_insert]
    by_cases hk : k = ids.next
    · rw [if_pos hk, if_pos hk]
      rfl
    · rw [if_neg hk, if_neg hk]
      rfl

/-- Two runs of declarations may be added to a table one after the other, or recorded as one. -/
theorem extend_record_append (t : SymbolTable) (ids : IdSource) (ls ms : List Location) :
    t.extend (record .empty ids (ls ++ ms))
      = (t.extend (record .empty ids ls)).extend (record .empty (ids.skip ls.length) ms) := by
  apply eq_of_find?_eq
  intro k
  rw [find?_extend, record_append, find?_record_eq_or, find?_extend, find?_extend, Option.or_assoc]

/-- A recorded identifier is bound to its own location, whatever it was bound to before. -/
theorem find?_extend_record_nth (t : SymbolTable) {ids : IdSource} {ls : List Location}
    (hroom : ids.next.toNat + ls.length < UInt64.size) {k : Nat} (hk : k < ls.length) :
    (t.extend (record .empty ids ls)).find? (ids.nth k) = ls[k]? := by
  have hnth : (ids.nth k).toNat = ids.next.toNat + k := IdSource.toNat_nth (by omega)
  have hle : ids.next ≤ ids.nth k := by
    rw [UInt64.le_iff_toNat_le, hnth]
    omega
  rw [find?_extend, find?_record _ hroom, if_pos hle, hnth, Nat.add_sub_cancel_left,
    List.getElem?_eq_getElem hk]
  rfl

/-- An identifier that is not recorded stays bound as it was. -/
theorem find?_extend_record_of_ne (t : SymbolTable) {ids : IdSource} {ls : List Location}
    (hroom : ids.next.toNat + ls.length < UInt64.size) {id : UInt64}
    (hid : ∀ k < ls.length, id ≠ ids.nth k) :
    (t.extend (record .empty ids ls)).find? id = t.find? id := by
  rw [find?_extend, find?_record _ hroom]
  by_cases hle : ids.next ≤ id
  · have hge : ls.length ≤ id.toNat - ids.next.toNat := by
      refine Nat.not_lt.mp fun hlt => ?_
      rw [UInt64.le_iff_toNat_le] at hle
      apply hid (id.toNat - ids.next.toNat) (by omega)
      rw [← UInt64.toNat_inj, IdSource.toNat_nth (by omega)]
      omega
    rw [if_pos hle, List.getElem?_eq_none hge]
    rfl
  · rw [if_neg hle]
    rfl

end SymbolTable

end FrontEnd
