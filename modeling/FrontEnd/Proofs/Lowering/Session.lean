import FrontEnd.Proofs.Lowering.Turn
import Mathlib.Data.List.DropRight
import Mathlib.Data.List.Induction
import Mathlib.Data.List.Infix

/-!
# What a session keeps account of

The source of identifiers counts from the last reset (`Counted`), and the symbol table holds what the calls
since the last clearing have returned (`Recorded`). Both are kept by every turn, since a turn does one of the
few things that `Counts` and `Binds` list, and so by every sequence of steps (`accounts_of_room`).

Nothing ties the two together once the source is reset and the table is not: then an identifier is given out
again and the later call hides what was bound to it. As long as there is no such reset, every identifier in
the table is behind the source (`Recorded.below`), and no binding is ever replaced.
-/

namespace FrontEnd.Session

/-! ## Turns since a reset or a clearing -/

/-- The turns since the identifiers were last reset, or since the start. -/
def sinceReset (turns : List Turn) : List Turn := turns.rtakeWhile fun t => !t.isReset

/-- The turns since the symbols were last cleared, or since the start. -/
def sinceClear (turns : List Turn) : List Turn := turns.rtakeWhile fun t => !t.isClear

/-- The identifiers taken since the last reset, in their order. -/
def takenSinceReset (turns : List Turn) : List UInt64 := (sinceReset turns).flatMap Turn.taken

/-- The calls since the last clearing, in their order. -/
def callsSinceClear (turns : List Turn) : List Call := (sinceClear turns).filterMap Turn.call?

/-- There was no reset since the symbols were last cleared. -/
def Unbroken (turns : List Turn) : Prop := ∀ t ∈ sinceClear turns, t.isReset = false

variable {turns : List Turn} {t : Turn}

theorem takenSinceReset_concat_reset (h : t.isReset = true) : takenSinceReset (turns ++ [t]) = [] := by
  simp [takenSinceReset, sinceReset, h]

theorem takenSinceReset_concat (h : t.isReset = false) :
    takenSinceReset (turns ++ [t]) = takenSinceReset turns ++ t.taken := by
  simp [takenSinceReset, sinceReset, h]

theorem callsSinceClear_concat_clear (h : t.isClear = true) : callsSinceClear (turns ++ [t]) = [] := by
  simp [callsSinceClear, sinceClear, h]

theorem callsSinceClear_concat (h : t.isClear = false) :
    callsSinceClear (turns ++ [t]) = callsSinceClear turns ++ t.call?.toList := by
  cases hc : t.call? <;> simp [callsSinceClear, sinceClear, h, hc]

theorem unbroken_concat_iff (h : t.isClear = false) :
    Unbroken (turns ++ [t]) ↔ Unbroken turns ∧ t.isReset = false := by
  have hsince : sinceClear (turns ++ [t]) = sinceClear turns ++ [t] := by
    simp [sinceClear, h]
  simp [Unbroken, hsince, or_imp, forall_and]

/-! ## Identifiers -/

/-- A source of identifiers has given out 1, 2, 3, … since the last reset. -/
structure Counted (turns : List Turn) (ids : IdSource) : Prop where
  taken : (takenSinceReset turns).map UInt64.toNat = List.range' 1 (takenSinceReset turns).length
  next : ids.next.toNat = (takenSinceReset turns).length + 1

theorem counted_nil : Counted [] {} where
  taken := rfl
  next := rfl

theorem Counted.concat {ids ids' : IdSource} (h : Counted turns ids) (ht : Counts ids t ids')
    (hroom : (takenSinceReset (turns ++ [t])).length < UInt64.size - 1) :
    Counted (turns ++ [t]) ids' := by
  cases ht with
  | reset hreset hids =>
    have hnil : takenSinceReset (turns ++ [t]) = [] := takenSinceReset_concat_reset hreset
    exact ⟨by rw [hnil]; rfl, by rw [hnil, hids]; rfl⟩
  | skip k hreset htaken hids =>
    have hlength : (takenSinceReset (turns ++ [t])).length = (takenSinceReset turns).length + k := by
      rw [takenSinceReset_concat hreset, htaken, List.length_append, List.length_map, List.length_range]
    have hfits : ids.next.toNat + k < UInt64.size := by
      have := h.next
      omega
    constructor
    · rw [hlength, takenSinceReset_concat hreset, htaken, List.map_append, h.taken,
        IdSource.map_toNat_nth hfits, h.next, Nat.add_comm _ 1]
      exact List.range'_append_1
    · rw [hlength, hids, show (ids.skip k).next = ids.nth k from rfl, IdSource.toNat_nth hfits, h.next]
      omega

/-! ## Symbols -/

/-- The symbols hold what the calls since the last clearing have returned. -/
structure Recorded (turns : List Turn) (s : Session) : Prop where
  find : ∀ id, s.symbols.find? id = (callsSinceClear turns).reverse.findSome? (·.location? id)
  lengths : ∀ c ∈ callsSinceClear turns, c.ids.length = c.locations.length
  entries : Unbroken turns →
    s.symbols.entries.map Prod.fst = (callsSinceClear turns).flatMap Call.ids
  below : Unbroken turns → ∀ e ∈ s.symbols.entries, e.1 < s.ids.next

theorem recorded_nil : Recorded [] {} where
  find _ := rfl
  lengths := by simp [callsSinceClear, sinceClear]
  entries _ := rfl
  below _ := by simp [SymbolTable.empty]

/-- The table of a call alone. -/
theorem Call.entries_record {c : Call} {ids : IdSource}
    (hids : c.ids = (List.range c.locations.length).map ids.nth)
    (hroom : ids.next.toNat + c.locations.length < UInt64.size) :
    (SymbolTable.record .empty ids c.locations).entries = c.ids.zip c.locations := by
  rw [SymbolTable.entries_record .empty hroom (by simp [SymbolTable.empty]), hids]
  apply List.ext_getElem
  · simp [SymbolTable.empty]
  · intro k hk hk'
    simp [SymbolTable.empty]

theorem Call.isSome_location?_iff {c : Call} (hlength : c.ids.length = c.locations.length)
    (id : UInt64) : (c.location? id).isSome ↔ id ∈ c.ids := by
  rw [location?, ← not_iff_not, Bool.not_eq_true, Option.isSome_eq_false_iff, Option.isNone_iff_eq_none,
    List.lookup_eq_none_iff]
  constructor
  · intro h hmem
    rw [← List.map_fst_zip (by omega : c.ids.length ≤ c.locations.length)] at hmem
    obtain ⟨e, he, rfl⟩ := List.mem_map.mp hmem
    simpa using h e he
  · intro h e he
    have hmem : e.1 ∈ c.ids := (List.of_mem_zip he).1
    have hne : id ≠ e.1 := fun heq => h (heq ▸ hmem)
    simpa using hne

/-- Every identifier in the table has been returned by a call. -/
theorem Recorded.bound_iff {s : Session} (h : Recorded turns s) (id : UInt64) :
    (∃ location, s.symbols.find? id = some location) ↔ ∃ c ∈ callsSinceClear turns, id ∈ c.ids := by
  rw [← Option.isSome_iff_exists, h.find, List.isSome_findSome?, List.any_eq_true]
  simp only [List.mem_reverse]
  constructor
  · rintro ⟨c, hc, hid⟩
    exact ⟨c, hc, (Call.isSome_location?_iff (h.lengths c hc) id).mp hid⟩
  · rintro ⟨c, hc, hid⟩
    exact ⟨c, hc, (Call.isSome_location?_iff (h.lengths c hc) id).mpr hid⟩

/-- The calls since the last clearing, with one more. -/
theorem Recorded.find?_extend {s : Session} (h : Recorded turns s) {c : Call}
    (hids : c.ids = (List.range c.locations.length).map s.ids.nth)
    (hroom : s.ids.next.toNat + c.locations.length < UInt64.size) (id : UInt64) :
    (s.symbols.extend (.record .empty s.ids c.locations)).find? id
      = (callsSinceClear turns ++ [c]).reverse.findSome? (·.location? id) := by
  rw [SymbolTable.find?_extend, SymbolTable.find?, Call.entries_record hids hroom, h.find,
    List.reverse_append, List.reverse_singleton, List.singleton_append, List.findSome?_cons,
    ← Call.location?]
  cases c.location? id <;> rfl

/-- Without a reset, the identifiers that a call returns lie beyond those in the table. -/
theorem Recorded.entries_extend {s : Session} (h : Recorded turns s) (hturns : Unbroken turns) {c : Call}
    (hids : c.ids = (List.range c.locations.length).map s.ids.nth)
    (hroom : s.ids.next.toNat + c.locations.length < UInt64.size) :
    (s.symbols.extend (.record .empty s.ids c.locations)).entries
      = s.symbols.entries ++ c.ids.zip c.locations := by
  have hrecord := Call.entries_record hids hroom
  rw [SymbolTable.entries_extend, hrecord]
  rw [hrecord]
  intro e he f hf
  have hmem : f.1 ∈ c.ids := (List.of_mem_zip hf).1
  rw [hids] at hmem
  have hfirst := (IdSource.toNat_of_mem hmem hroom).1
  have hlt := UInt64.lt_iff_toNat_lt.mp (h.below hturns e he)
  rw [UInt64.lt_iff_toNat_lt]
  omega

theorem recorded_of_clear {s' : Session} (hclear : t.isClear = true) (hsymbols : s'.symbols = .empty) :
    Recorded (turns ++ [t]) s' := by
  have hnil : callsSinceClear (turns ++ [t]) = [] := callsSinceClear_concat_clear hclear
  exact {
    find := fun id => by rw [hnil, hsymbols]; rfl
    lengths := by simp [hnil]
    entries := fun _ => by rw [hnil, hsymbols]; rfl
    below := fun _ => by simp [hsymbols, SymbolTable.empty] }

theorem Recorded.of_keep {s s' : Session} (h : Recorded turns s) (hclear : t.isClear = false)
    (hcall : t.call? = none) (hsymbols : s'.symbols = s.symbols)
    (hnext : t.isReset = false → s.ids.next.toNat ≤ s'.ids.next.toNat) :
    Recorded (turns ++ [t]) s' := by
  have hcalls : callsSinceClear (turns ++ [t]) = callsSinceClear turns := by
    rw [callsSinceClear_concat hclear, hcall, Option.toList_none, List.append_nil]
  refine ⟨by rw [hcalls, hsymbols]; exact h.find, by rw [hcalls]; exact h.lengths, ?_, ?_⟩
  · intro hunbroken
    rw [hcalls, hsymbols]
    exact h.entries ((unbroken_concat_iff hclear).mp hunbroken).1
  · intro hunbroken e he
    obtain ⟨hturns, hreset⟩ := (unbroken_concat_iff hclear).mp hunbroken
    rw [hsymbols] at he
    have hlt := UInt64.lt_iff_toNat_lt.mp (h.below hturns e he)
    have hle := hnext hreset
    rw [UInt64.lt_iff_toNat_lt]
    omega

theorem Recorded.of_extend {s s' : Session} (h : Recorded turns s) {c : Call} (hclear : t.isClear = false)
    (hcall : t.call? = some c) (hids : c.ids = (List.range c.locations.length).map s.ids.nth)
    (hsymbols : s'.symbols = s.symbols.extend (.record .empty s.ids c.locations))
    (hnext : s'.ids.next.toNat = s.ids.next.toNat + c.locations.length)
    (hroom : s.ids.next.toNat + c.locations.length < UInt64.size) :
    Recorded (turns ++ [t]) s' := by
  have hcalls : callsSinceClear (turns ++ [t]) = callsSinceClear turns ++ [c] := by
    rw [callsSinceClear_concat hclear, hcall, Option.toList_some]
  have hlength : c.ids.length = c.locations.length := by
    rw [hids, List.length_map, List.length_range]
  refine ⟨?_, ?_, ?_, ?_⟩
  · intro id
    rw [hcalls, hsymbols]
    exact h.find?_extend hids hroom id
  · rw [hcalls]
    intro d hd
    rcases List.mem_append.mp hd with hd | hd
    · exact h.lengths d hd
    · rw [List.mem_singleton.mp hd, hlength]
  · intro hunbroken
    obtain ⟨hturns, -⟩ := (unbroken_concat_iff hclear).mp hunbroken
    rw [hcalls, hsymbols, h.entries_extend hturns hids hroom, List.map_append, h.entries hturns,
      List.map_fst_zip (by rw [hlength]), List.flatMap_append, List.flatMap_singleton]
  · intro hunbroken e he
    obtain ⟨hturns, -⟩ := (unbroken_concat_iff hclear).mp hunbroken
    rw [hsymbols, h.entries_extend hturns hids hroom, List.mem_append] at he
    rw [UInt64.lt_iff_toNat_lt, hnext]
    rcases he with he | he
    · have hlt := UInt64.lt_iff_toNat_lt.mp (h.below hturns e he)
      omega
    · have hmem : e.1 ∈ c.ids := (List.of_mem_zip he).1
      rw [hids] at hmem
      exact (IdSource.toNat_of_mem hmem hroom).2

theorem Recorded.concat {s s' : Session} (h : Recorded turns s) (hcounted : Counted turns s.ids)
    (hcounted' : Counted (turns ++ [t]) s'.ids) (ht : Binds s t s'.symbols)
    (hroom : (takenSinceReset (turns ++ [t])).length < UInt64.size - 1) :
    Recorded (turns ++ [t]) s' := by
  -- without a reset the source has only moved on
  have hnext : t.isReset = false → s'.ids.next.toNat = s.ids.next.toNat + t.taken.length := by
    intro hreset
    rw [hcounted'.next, hcounted.next, takenSinceReset_concat hreset, List.length_append]
    omega
  cases ht with
  | clear hclear hsymbols => exact recorded_of_clear hclear hsymbols
  | keep hclear hcall hsymbols =>
    exact h.of_keep hclear hcall hsymbols fun hreset => by rw [hnext hreset]; omega
  | extend c hclear hcall hids htaken hsymbols =>
    have hmoved := hnext (Turn.isReset_of_call? hcall)
    rw [htaken, List.length_map, List.length_range] at hmoved
    have hlast := hcounted'.next
    exact h.of_extend hclear hcall (hids.trans htaken) hsymbols hmoved (by omega)

/-- Without a reset, a turn other than a clearing leaves every binding as it is. -/
theorem Recorded.find?_of_binds {s : Session} (h : Recorded turns s) (hunbroken : Unbroken turns)
    {symbols' : SymbolTable} (ht : Binds s t symbols') (hclear : t.isClear = false)
    (hroom : s.ids.next.toNat + t.taken.length < UInt64.size) {id : UInt64} {location : Location}
    (hid : s.symbols.find? id = some location) : symbols'.find? id = some location := by
  cases ht with
  | clear hclear' => rw [hclear'] at hclear; cases hclear
  | keep _ _ hsymbols => rw [hsymbols, hid]
  | extend c _ hcall hids htaken hsymbols =>
    have hlength : t.taken.length = c.locations.length := by
      rw [htaken, List.length_map, List.length_range]
    rw [hsymbols, SymbolTable.find?_extend_record_of_ne _ (by omega), hid]
    rintro k hk rfl
    obtain ⟨e, he, heq⟩ : ∃ e ∈ s.symbols.entries, e.1 = s.ids.nth k := by
      obtain ⟨before, after, hentries, -⟩ := List.lookup_eq_some_iff.mp hid
      exact ⟨_, hentries ▸ List.mem_append_right _ List.mem_cons_self, rfl⟩
    have hlt := UInt64.lt_iff_toNat_lt.mp (h.below hunbroken e he)
    rw [heq, IdSource.toNat_nth (by omega)] at hlt
    omega

/-! ## Runs -/

/-- The turns of a session that starts with nothing. -/
def turnsOf (steps : List Step) : List Turn := (play {} steps).1

/-- What a session that starts with nothing has come to. -/
def after (steps : List Step) : Session := (play {} steps).2

theorem turnsOf_concat (steps : List Step) (step : Step) :
    turnsOf (steps ++ [step]) = turnsOf steps ++ [((after steps).turn step).1] := by
  rw [turnsOf, play_concat]
  rfl

theorem after_concat (steps : List Step) (step : Step) :
    after (steps ++ [step]) = ((after steps).turn step).2 := by
  rw [after, play_concat]
  rfl

/-- Fewer identifiers than there are words are taken between two resets. -/
def HasRoom (steps : List Step) : Prop :=
  ∀ before, before <+: steps → (takenSinceReset (turnsOf before)).length < UInt64.size - 1

theorem hasRoom_iff (steps : List Step) :
    HasRoom steps ↔
      ∀ before ∈ steps.inits, (takenSinceReset (turnsOf before)).length < UInt64.size - 1 := by
  simp only [HasRoom, List.mem_inits]

instance (steps : List Step) : Decidable (HasRoom steps) := decidable_of_iff _ (hasRoom_iff steps).symm

theorem HasRoom.of_prefix {before steps : List Step} (h : HasRoom steps) (hbefore : before <+: steps) :
    HasRoom before :=
  fun first hfirst => h first (hfirst.trans hbefore)

/-- What a turn keeps, a run of turns keeps. -/
theorem counted_recorded (steps : List Step) (hroom : HasRoom steps) :
    Counted (turnsOf steps) (after steps).ids ∧ Recorded (turnsOf steps) (after steps) := by
  induction steps using List.reverseRecOn with
  | nil => exact ⟨counted_nil, recorded_nil⟩
  | append_singleton steps step ih =>
    obtain ⟨hcounted, hrecorded⟩ := ih (hroom.of_prefix (List.prefix_append _ _))
    have hlast := hroom _ List.prefix_rfl
    rw [turnsOf_concat] at hlast ⊢
    rw [after_concat]
    have hcounted' := hcounted.concat (counts_turn (after steps) step) hlast
    exact ⟨hcounted', hrecorded.concat hcounted hcounted' (binds_turn (after steps) step) hlast⟩

/-- Without a reset since the last clearing, a binding stays until the next clearing. -/
theorem find?_after_append (before later : List Step) (hroom : HasRoom (before ++ later))
    (hunbroken : Unbroken (turnsOf (before ++ later))) (hclear : Step.clearSymbols ∉ later) {id : UInt64}
    {location : Location} (hid : (after before).symbols.find? id = some location) :
    (after (before ++ later)).symbols.find? id = some location := by
  induction later using List.reverseRecOn with
  | nil => rwa [List.append_nil]
  | append_singleton later step ih =>
    rw [← List.append_assoc] at hroom hunbroken ⊢
    rw [List.mem_append, List.mem_singleton, not_or] at hclear
    have hroom' := hroom.of_prefix (List.prefix_append _ [step])
    have hkept : ((after (before ++ later)).turn step).1.isClear = false := by
      cases step with
      | clearSymbols => exact absurd rfl hclear.2
      | _ => rfl
    have hlast := (counted_recorded _ hroom).1.next
    obtain ⟨hcounted, hrecorded⟩ := counted_recorded _ hroom'
    have hsize := hroom _ List.prefix_rfl
    rw [turnsOf_concat] at hunbroken hlast hsize
    obtain ⟨hturns, hreset⟩ := (unbroken_concat_iff hkept).mp hunbroken
    rw [takenSinceReset_concat hreset, List.length_append] at hsize
    have hfits : (after (before ++ later)).ids.next.toNat
        + ((after (before ++ later)).turn step).1.taken.length < UInt64.size := by
      rw [hcounted.next]
      omega
    rw [after_concat]
    exact hrecorded.find?_of_binds hturns (binds_turn _ step) hkept hfits (ih hroom' hturns hclear.1)

/-- What holds of the identifiers and the symbols of a session after some steps. -/
structure Accounts (steps : List Step) : Prop where
  /-- The identifiers taken since the last reset are 1, 2, 3, and so on. -/
  counted : (takenSinceReset (turnsOf steps)).map UInt64.toNat
    = List.range' 1 (takenSinceReset (turnsOf steps)).length
  /-- There are no others. -/
  next : (after steps).ids.next.toNat = (takenSinceReset (turnsOf steps)).length + 1
  /-- What a turn lowers carries the identifiers that the turn takes. -/
  given : ∀ t ∈ turnsOf steps, ∀ l, t.lowered? = some l →
    l.declarations.map Declaration.id = t.taken
  /-- The table binds what the calls since the last clearing have returned. -/
  bound_iff : ∀ id, (∃ location, (after steps).symbols.find? id = some location) ↔
    ∃ c ∈ callsSinceClear (turnsOf steps), id ∈ c.ids
  /-- The location is the one of the latest of these calls. -/
  latest : ∀ id, (after steps).symbols.find? id
    = (callsSinceClear (turnsOf steps)).reverse.findSome? (·.location? id)
  /-- No other step changes the table. -/
  others : ∀ before step, before ++ [step] <+: steps → step ≠ .clearSymbols →
    ((after before).turn step).1.call? = none →
      (after (before ++ [step])).symbols = (after before).symbols
  /-- Without a reset since the last clearing, the table has one entry for each declaration returned. -/
  entries : Unbroken (turnsOf steps) →
    (after steps).symbols.entries.map Prod.fst = (callsSinceClear (turnsOf steps)).flatMap Call.ids
  /-- Without a reset since the last clearing, no binding has been replaced. -/
  kept : Unbroken (turnsOf steps) → ∀ before later, steps = before ++ later →
    Step.clearSymbols ∉ later → ∀ id location, (after before).symbols.find? id = some location →
      (after steps).symbols.find? id = some location

theorem exists_turn_of_mem (s : Session) (steps : List Step) {t : Turn} (h : t ∈ (s.play steps).1) :
    ∃ (s' : Session) (step : Step), t = (s'.turn step).1 := by
  induction steps generalizing s with
  | nil => cases h
  | cons step rest ih =>
    rcases List.mem_cons.mp h with rfl | h
    · exact ⟨s, step, rfl⟩
    · exact ih _ h

/-- **Sessions.** Whatever steps a session takes, its identifiers count from the last reset and its symbols
are those of the calls since the last clearing, as long as the identifiers fit into words. -/
theorem accounts_of_room (steps : List Step) (hroom : HasRoom steps) : Accounts steps := by
  obtain ⟨hcounted, hrecorded⟩ := counted_recorded steps hroom
  refine {
    counted := hcounted.taken
    next := hcounted.next
    given := ?_
    bound_iff := hrecorded.bound_iff
    latest := hrecorded.find
    others := ?_
    entries := hrecorded.entries
    kept := ?_ }
  · intro t ht l hl
    obtain ⟨s, step, rfl⟩ := exists_turn_of_mem {} steps ht
    exact map_id_of_lowered? step hl
  · intro before step _ hstep hcall
    rw [after_concat]
    cases binds_turn (after before) step with
    | clear hclear =>
      cases step with
      | clearSymbols => exact absurd rfl hstep
      | _ => cases hclear
    | keep _ _ hsymbols => exact hsymbols
    | extend c _ hcall' => rw [hcall] at hcall'; cases hcall'
  · rintro hunbroken before later rfl hclear id location hid
    exact find?_after_append before later hroom hunbroken hclear hid

/-- A reset and later a clearing, and behind them a module that takes identifiers before it fails. -/
def sampleSteps : List Step :=
  [.lowerInto "a" .sample, .resetIds, .lowerInto "b" .sample, .clearSymbols, .takeId,
    .check "c" (.module .flawedSample), .lowerInto "d" .sample]

theorem accounts_sampleSteps :
    HasRoom sampleSteps ∧ (after sampleSteps).ids.next = 8 ∧
      (after sampleSteps).symbols.entries.map Prod.fst = [6, 7] ∧ Accounts sampleSteps :=
  ⟨by decide, by decide, by decide, accounts_of_room sampleSteps (by decide)⟩

end FrontEnd.Session
