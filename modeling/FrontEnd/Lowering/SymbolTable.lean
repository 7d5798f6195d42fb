import FrontEnd.Diagnostic.Location

/-! # Identifiers and symbol tables

Identifiers are words of 64 bits, given out from 1 upwards. A symbol table holds the location of a
declaration under its identifier; its entries are in the order of the identifiers, so two tables with the
same bindings are equal.
-/

namespace FrontEnd

/-- A source of identifiers. -/
structure IdSource where
  next : UInt64 := 1
  deriving DecidableEq

/-- The source after its next identifier has been taken. -/
def IdSource.advance (ids : IdSource) : IdSource := ⟨ids.next + 1⟩

/-- The entries with one more, in place of one with the same identifier. -/
def insertEntry (id : UInt64) (location : Location) :
    List (UInt64 × Location) → List (UInt64 × Location)
  | [] => [(id, location)]
  | (k, l) :: rest =>
    if id < k then (id, location) :: (k, l) :: rest
    else if id = k then (id, location) :: rest
    else (k, l) :: insertEntry id location rest

theorem fst_of_mem_insertEntry {id : UInt64} {location : Location} {entries : List (UInt64 × Location)}
    {e : UInt64 × Location} (h : e ∈ insertEntry id location entries) : e.1 = id ∨ e ∈ entries := by
  induction entries with
  | nil => simp_all [insertEntry]
  | cons entry rest ih =>
    obtain ⟨k, l⟩ := entry
    simp only [insertEntry] at h
    split at h
    · rcases List.mem_cons.mp h with rfl | h
      · exact .inl rfl
      · exact .inr h
    · split at h
      · rcases List.mem_cons.mp h with rfl | h
        · exact .inl rfl
        · exact .inr (List.mem_cons_of_mem _ h)
      · rcases List.mem_cons.mp h with rfl | h
        · exact .inr List.mem_cons_self
        · exact (ih h).imp_right (List.mem_cons_of_mem _)

theorem pairwise_insertEntry {entries : List (UInt64 × Location)} (id : UInt64) (location : Location)
    (h : entries.Pairwise fun a b => a.1 < b.1) :
    (insertEntry id location entries).Pairwise fun a b => a.1 < b.1 := by
  induction entries with
  | nil => simp [insertEntry]
  | cons entry rest ih =>
    obtain ⟨hlt, hrest⟩ := List.pairwise_cons.mp h
    simp only [insertEntry]
    split
    · rename_i hid
      refine List.pairwise_cons.mpr ⟨?_, h⟩
      intro e he
      rcases List.mem_cons.mp he with rfl | he
      · exact hid
      · exact UInt64.lt_trans hid (hlt e he)
    · split
      · rename_i hid
        subst hid
        exact List.pairwise_cons.mpr ⟨hlt, hrest⟩
      · rename_i hle hne
        refine List.pairwise_cons.mpr ⟨?_, ih hrest⟩
        intro e he
        rcases fst_of_mem_insertEntry he with he | he
        · rw [he]
          exact UInt64.lt_of_le_of_ne (UInt64.not_lt.mp hle) (Ne.symm hne)
        · exact hlt e he

theorem lookup_insertEntry (id : UInt64) (location : Location) (entries : List (UInt64 × Location))
    (k : UInt64) :
    (insertEntry id location entries).lookup k
      = if k = id then some location else entries.lookup k := by
  by_cases hk : k = id
  · subst hk
    rw [if_pos rfl]
    induction entries with
    | nil => simp [insertEntry]
    | cons entry rest ih =>
      rw [insertEntry]
      split
      · simp
      · split
        · simp
        · rename_i hne
          have hk : (k == entry.1) = false := beq_eq_false_iff_ne.mpr hne
          rw [List.lookup_cons, hk, ih]
  · have hid : (k == id) = false := beq_eq_false_iff_ne.mpr hk
    rw [if_neg hk]
    induction entries with
    | nil => simp [insertEntry, List.lookup_cons, hid]
    | cons entry rest ih =>
      obtain ⟨j, l⟩ := entry
      rw [insertEntry]
      split
      · simp [List.lookup_cons, hid]
      · split
        · rename_i hj
          subst hj
          simp [List.lookup_cons, hid]
        · simp [List.lookup_cons, ih]

/-- The locations of declarations under their identifiers. -/
structure SymbolTable where
  entries : List (UInt64 × Location) := []
  sorted : entries.Pairwise fun a b => a.1 < b.1 := by simp

namespace SymbolTable

def empty : SymbolTable := {}

def find? (t : SymbolTable) (id : UInt64) : Option Location := t.entries.lookup id

/-- The table with a location under an identifier. -/
def insert (t : SymbolTable) (id : UInt64) (location : Location) : SymbolTable :=
  ⟨insertEntry id location t.entries, pairwise_insertEntry id location t.sorted⟩

@[simp] theorem find?_insert (t : SymbolTable) (id k : UInt64) (location : Location) :
    (t.insert id location).find? k = if k = id then some location else t.find? k := by
  rw [find?, find?, insert, lookup_insertEntry]

/-- The table with all entries of another one. -/
def extend (t u : SymbolTable) : SymbolTable :=
  u.entries.foldl (fun t entry => t.insert entry.1 entry.2) t

/-- An object with the locations under their identifiers in decimal. -/
def toJson (t : SymbolTable) : Json :=
  .object (t.entries.map fun entry => (entry.1.toNat.repr, encode entry.2))

end SymbolTable

end FrontEnd
