import FrontEnd.Proofs.Lowering.Module
import Mathlib.Data.List.TakeWhile

/-!
# Where the walk stops

A walk over items takes one identifier for each declaration in front of the first item with a flaw, and for no
other: a declaration is checked as a whole before it is given its identifier. `Progress.Takes` says this of the
source of identifiers and of the records alike, since the record of a declaration holds the identifier that
it was given. What a module without a result leaves behind follows in `Module.stopped_of_error`.
-/

namespace FrontEnd

/-! ## Items in front of a flaw -/

namespace Item

/-- The items in front of the first one with a flaw. -/
def beforeFlaw (items : List Item) : List Item := items.takeWhile fun item => item.flaws.isEmpty

variable {item : Item} {items : List Item}

theorem beforeFlaw_cons_of_eq_nil (h : item.flaws = []) :
    beforeFlaw (item :: items) = item :: beforeFlaw items := by
  simp [beforeFlaw, h]

theorem beforeFlaw_cons_of_ne_nil (h : item.flaws ≠ []) : beforeFlaw (item :: items) = [] := by
  simp [beforeFlaw, h]

theorem beforeFlaw_eq_self (h : items.flatMap flaws = []) : beforeFlaw items = items := by
  rw [List.flatMap_eq_nil_iff] at h
  rw [beforeFlaw, List.takeWhile_eq_self_iff]
  intro item hitem
  simpa using h item hitem

/-- The first flaw of some items is the first flaw of the item right behind those without flaws. -/
theorem exists_eq_beforeFlaw_append {flaw : Flaw} {more : List Flaw}
    (h : items.flatMap flaws = flaw :: more) :
    ∃ item after, items = beforeFlaw items ++ item :: after ∧ item.flaws.head? = some flaw := by
  induction items with
  | nil => simp at h
  | cons item rest ih =>
    rw [List.flatMap_cons] at h
    cases hf : item.flaws with
    | nil =>
      rw [hf, List.nil_append] at h
      obtain ⟨stop, after, heq, hfirst⟩ := ih h
      refine ⟨stop, after, ?_, hfirst⟩
      rw [beforeFlaw_cons_of_eq_nil hf, List.cons_append, ← heq]
    | cons first others =>
      rw [hf] at h
      have hne : item.flaws ≠ [] := by simp [hf]
      refine ⟨item, rest, by rw [beforeFlaw_cons_of_ne_nil hne, List.nil_append], ?_⟩
      rw [hf, List.head?_cons, (List.cons.inj h).1]

end Item

/-- The declarations of a module in front of the first item with a flaw. -/
def Module.declaredBeforeFlaw (m : Module) : List SourceDecl :=
  (Item.beforeFlaw m.items).flatMap Item.declared

theorem Module.declaredBeforeFlaw_of_flaws_eq_nil (m : Module) (h : m.flaws = []) :
    m.declaredBeforeFlaw = m.declared := by
  rw [declaredBeforeFlaw, Item.beforeFlaw_eq_self (m.flatMap_flaws.trans h), m.flatMap_declared]

/-! ## Identifiers in the records -/

/-- The identifier that a record tells of. -/
def Event.givenId? : Event → Option UInt64
  | .structDeclared _ id => some id
  | .functionDeclared _ id => some id
  | _ => none

/-- The identifiers that some records tell of, in their order. -/
def givenIds (log : List Event) : List UInt64 := log.filterMap Event.givenId?

@[simp] theorem givenIds_append (log more : List Event) :
    givenIds (log ++ more) = givenIds log ++ givenIds more := List.filterMap_append

theorem givenIds_importNames (position : Position) (names : List String) :
    givenIds (importNames position names).log = [] := by
  induction names with
  | nil => rfl
  | cons name rest ih =>
    rw [importNames]
    split
    · rfl
    · exact ih

/-- An import is given no identifier. -/
theorem Import.givenIds_lower (i : Import) : givenIds i.lower.log = [] := by
  unfold Import.lower
  split
  · rfl
  · exact givenIds_importNames i.position i.names

/-! ## The walk -/

namespace Progress

variable {p q r : Progress} {j k : Nat}

/-- What is there once some identifiers have been taken. -/
structure Takes (p : Progress) (k : Nat) (q : Progress) : Prop where
  ids : q.ids = p.ids.skip k
  records : givenIds q.log = givenIds p.log ++ (List.range k).map p.ids.nth

theorem takes_zero (hids : q.ids = p.ids) (hlog : givenIds q.log = givenIds p.log) : Takes p 0 q where
  ids := by rw [hids, IdSource.skip_zero]
  records := by rw [hlog, List.range_zero, List.map_nil, List.append_nil]

theorem Takes.trans (hpq : Takes p j q) (hqr : Takes q k r) : Takes p (j + k) r where
  ids := by rw [hqr.ids, hpq.ids, IdSource.skip_skip]
  records := by
    have hnth : q.ids.nth = p.ids.nth ∘ (j + ·) := by
      funext i
      rw [hpq.ids, IdSource.nth_skip, Function.comp_apply]
    rw [hqr.records, hpq.records, hnth, List.append_assoc, ← List.map_map, ← List.map_append,
      ← List.range_add]

theorem takes_declare (p : Progress) (d : Declaration) (location : Location) (event : Event)
    (h : event.givenId? = some p.ids.next) : Takes p 1 (p.declare d location event) where
  ids := p.ids.skip_one.symm
  records := by simp [declare, givenIds, h]

variable (file : String)

/-- An item without flaws takes an identifier if it is a declaration. -/
theorem takes_step (p : Progress) {item : Item} (h : item.flaws = []) :
    Takes p item.declared.length (p.step file item).1 := by
  cases item with
  | ofImport i =>
    obtain ⟨log, hl⟩ := i.exists_lower_eq
    have hgiven : givenIds log = [] := by simpa only [hl] using i.givenIds_lower
    simp only [step, hl, show i.flaws = [] from h, settle]
    exact takes_zero rfl (by simp [hgiven])
  | ofStruct s =>
    simp only [step, s.lower_eq_settle, show s.flaws = [] from h, settle]
    exact takes_declare p _ _ _ rfl
  | ofFunction f =>
    simp only [step, f.lower_eq_settle, show f.flaws = [] from h, settle]
    exact takes_declare p _ _ _ rfl

/-- An item with a flaw takes no identifier, wherever in it the flaw is. -/
theorem takes_step_of_flaw (p : Progress) {item : Item} {flaw : Flaw} {more : List Flaw}
    (h : item.flaws = flaw :: more) : Takes p 0 (p.step file item).1 := by
  cases item with
  | ofImport i =>
    obtain ⟨log, hl⟩ := i.exists_lower_eq
    have hgiven : givenIds log = [] := by simpa only [hl] using i.givenIds_lower
    simp only [step, hl, show i.flaws = flaw :: more from h, settle]
    exact takes_zero rfl (by simp [hgiven])
  | ofStruct s =>
    simp only [step, s.lower_eq_settle, show s.flaws = flaw :: more from h, settle]
    exact takes_zero rfl rfl
  | ofFunction f =>
    simp only [step, f.lower_eq_settle, show f.flaws = flaw :: more from h, settle]
    exact takes_zero rfl rfl

theorem takes_walk (p : Progress) (items : List Item) :
    Takes p ((Item.beforeFlaw items).flatMap Item.declared).length (p.walk file items).1 := by
  induction items generalizing p with
  | nil => exact takes_zero rfl rfl
  | cons item rest ih =>
    have hstep := step_snd file p item
    cases hf : item.flaws with
    | nil =>
      rw [hf] at hstep
      have hfirst := takes_step file p hf
      rw [walk, show p.step file item = ((p.step file item).1, none) from Prod.ext rfl hstep,
        Item.beforeFlaw_cons_of_eq_nil hf, List.flatMap_cons, List.length_append]
      exact hfirst.trans (ih _)
    | cons flaw more =>
      rw [hf] at hstep
      have hne : item.flaws ≠ [] := by simp [hf]
      rw [walk, show p.step file item = ((p.step file item).1, some flaw.error) from Prod.ext rfl hstep,
        Item.beforeFlaw_cons_of_ne_nil hne]
      exact takes_step_of_flaw file p hf

end Progress

namespace Module

variable (m : Module) (file : String) (ids : IdSource) (symbols : SymbolTable)

/-- Whether or not a module is lowered, it takes one identifier for each declaration in front of its first
item with a flaw. -/
theorem ids_lowerInto : (m.lowerInto file ids symbols).ids = ids.skip m.declaredBeforeFlaw.length := by
  have htakes := Progress.takes_walk file { ids } m.items
  unfold lowerInto
  split <;> rename_i hwalk <;> rw [hwalk] at htakes <;> exact htakes.ids

/-- The records of a run tell of each identifier that has been taken. -/
theorem givenIds_lowerInto :
    givenIds (m.lowerInto file ids symbols).log
      = (List.range m.declaredBeforeFlaw.length).map ids.nth := by
  have htakes := Progress.takes_walk file { ids } m.items
  unfold lowerInto
  split <;> rename_i hwalk <;> rw [hwalk] at htakes
  · exact (givenIds_append _ _).trans ((List.append_nil _).trans htakes.records)
  · exact htakes.records

/-- **Failure.** A module that is not lowered gives neither imports nor declarations, and leaves the symbols
as they were. The source of identifiers has moved on by the number of declarations in front of the item with
the first flaw; that item has taken none. -/
theorem stopped_of_error {e : LoweringError} (herror : (m.lowerInto file ids symbols).result = .error e)
    (hroom : ids.next.toNat + m.declaredBeforeFlaw.length < UInt64.size) :
    (m.lowerInto file ids symbols).symbols = symbols ∧
      (m.lowerInto file ids symbols).ids.next.toNat
        = ids.next.toNat + m.declaredBeforeFlaw.length ∧
      ∃ item after flaw, m.items = Item.beforeFlaw m.items ++ item :: after ∧
        item.flaws.head? = some flaw ∧ m.flaws.head? = some flaw ∧ e = flaw.error := by
  rw [lowerInto_result, settle_eq_error_iff] at herror
  obtain ⟨flaw, hhead, rfl⟩ := herror
  obtain ⟨more, hflaws⟩ := List.head?_eq_some_iff.mp hhead
  obtain ⟨item, after, hitems, hfirst⟩ :=
    Item.exists_eq_beforeFlaw_append (m.flatMap_flaws.trans hflaws)
  refine ⟨(m.lowerInto_of_flaws_eq_cons file ids symbols hflaws).2, ?_,
    item, after, flaw, hitems, hfirst, hhead, rfl⟩
  rw [ids_lowerInto]
  exact IdSource.toNat_nth hroom

/-- The parts of `sample`, and a function with a literal among the arguments of an instruction in front of one
more struct. -/
def flawedSample : Module where
  parts := sample.parts ++ [
    .functions {} [{
      name := .capture "main"
      inputs := [{ type := .mk "Int" [], name := "n" }]
      body := .block {} [
        .reference {} ["print"] (some
          (.parenthetical {} (.literal { line := 9, column := 12 } (.scalar .int {} "1")) none))] }],
    .structs {} [{ name := "Behind", fields := [] }]]

theorem stopped_flawedSample :
    (flawedSample.lowerInto "main" ⟨7⟩ (SymbolTable.insert .empty 8 (.ofCounts "old" 1 1))).result
        = .error (.malformed "expression" { line := 9, column := 12 }
            "the literal cannot be used as a inline expression") ∧
      7 + flawedSample.declaredBeforeFlaw.length < UInt64.size ∧
      flawedSample.declaredBeforeFlaw.length = 2 ∧
      (flawedSample.lowerInto "main" ⟨7⟩ (SymbolTable.insert .empty 8 (.ofCounts "old" 1 1))).symbols
        = SymbolTable.insert .empty 8 (.ofCounts "old" 1 1) ∧
      (flawedSample.lowerInto "main" ⟨7⟩
          (SymbolTable.insert .empty 8 (.ofCounts "old" 1 1))).ids.next.toNat
        = 7 + flawedSample.declaredBeforeFlaw.length :=
  have herror : (flawedSample.lowerInto "main" ⟨7⟩
      (SymbolTable.insert .empty 8 (.ofCounts "old" 1 1))).result
      = .error (.malformed "expression" { line := 9, column := 12 }
          "the literal cannot be used as a inline expression") := by rfl
  have hroom : (7 : UInt64).toNat + flawedSample.declaredBeforeFlaw.length < UInt64.size := by decide
  have hstop := stopped_of_error flawedSample "main" ⟨7⟩ _ herror hroom
  ⟨herror, hroom, by rfl, hstop.1, hstop.2.1⟩

end Module

end FrontEnd
