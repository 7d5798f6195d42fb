import FrontEnd.Proofs.Lowering.Stop
import Mathlib.Logic.Relation

/-!
# Modules part by part

A module is lowered as its parts are, one behind the other: the run over the parts `p ++ q` is the run over `p`
followed by the run over `q`, which takes over the identifiers and the symbols that the first one has left. The
one run keeps the symbols of all declarations apart until its end and the two runs add theirs in two turns;
that comes to the same table (`SymbolTable.extend_record_append`). How declarations of one kind are spread over
parts does not matter either, since a module is lowered by its items (`lowerInto_congr`).
-/

namespace FrontEnd

/-! ## Changes to the parts -/

/-- A part in place of two parts of the same kind, of which the one goes on where the other stops. -/
inductive Part.Splits : Part → Part → Part → Prop
  | imports (p p₁ p₂ : Position) (items more : List Import) :
    Splits (.imports p (items ++ more)) (.imports p₁ items) (.imports p₂ more)
  | structs (p p₁ p₂ : Position) (items more : List StructDecl) :
    Splits (.structs p (items ++ more)) (.structs p₁ items) (.structs p₂ more)
  | functions (p p₁ p₂ : Position) (items more : List FunctionDecl) :
    Splits (.functions p (items ++ more)) (.functions p₁ items) (.functions p₂ more)

/-- There is nothing in a part. -/
inductive Part.IsEmpty : Part → Prop
  | imports (p : Position) : IsEmpty (.imports p [])
  | structs (p : Position) : IsEmpty (.structs p [])
  | functions (p : Position) : IsEmpty (.functions p [])

/-- Changes of a list of parts that leave its declarations as they are. -/
inductive Part.Regroups : List Part → List Part → Prop
  /-- One part is split into two. -/
  | split (before after : List Part) {part first second : Part} (h : part.Splits first second) :
    Regroups (before ++ part :: after) (before ++ first :: second :: after)
  /-- An empty part is put in between. -/
  | insert (before after : List Part) {part : Part} (h : part.IsEmpty) :
    Regroups (before ++ after) (before ++ part :: after)

theorem Part.Splits.items {part first second : Part} (h : part.Splits first second) :
    part.items = first.items ++ second.items := by
  cases h with
  | imports => exact List.map_append
  | structs => exact List.map_append
  | functions => exact List.map_append

theorem Part.IsEmpty.items {part : Part} (h : part.IsEmpty) : part.items = [] := by
  cases h <;> rfl

theorem Part.Regroups.items {p q : List Part} (h : Part.Regroups p q) :
    p.flatMap Part.items = q.flatMap Part.items := by
  cases h with
  | split before after h =>
    rw [List.flatMap_append, List.flatMap_append, List.flatMap_cons, List.flatMap_cons,
      List.flatMap_cons, h.items, List.append_assoc]
  | insert before after h =>
    rw [List.flatMap_append, List.flatMap_append, List.flatMap_cons, h.items, List.nil_append]

/-- However many changes are made, the items stay the same. -/
theorem flatMap_items_of_regroups {p q : List Part} (h : Relation.ReflTransGen Part.Regroups p q) :
    p.flatMap Part.items = q.flatMap Part.items := by
  induction h with
  | refl => rfl
  | tail _ hstep ih => exact ih.trans hstep.items

/-! ## Items in front of a flaw -/

namespace Item

variable {items more : List Item}

theorem beforeFlaw_append_of_eq_nil (h : items.flatMap flaws = []) :
    beforeFlaw (items ++ more) = items ++ beforeFlaw more := by
  induction items with
  | nil => rfl
  | cons item rest ih =>
    rw [List.flatMap_cons, List.append_eq_nil_iff] at h
    rw [List.cons_append, beforeFlaw_cons_of_eq_nil h.1, ih h.2, List.cons_append]

theorem beforeFlaw_append_of_ne_nil (h : items.flatMap flaws ≠ []) :
    beforeFlaw (items ++ more) = beforeFlaw items := by
  induction items with
  | nil => exact absurd rfl h
  | cons item rest ih =>
    rw [List.cons_append]
    by_cases hitem : item.flaws = []
    · rw [List.flatMap_cons, hitem, List.nil_append] at h
      rw [beforeFlaw_cons_of_eq_nil hitem, beforeFlaw_cons_of_eq_nil hitem, ih h]
    · rw [beforeFlaw_cons_of_ne_nil hitem, beforeFlaw_cons_of_ne_nil hitem]

end Item

/-! ## Runs one after the other -/

namespace LoweringRun

/-- A run that does what two other runs do one after the other. -/
structure Joins (first second whole : LoweringRun) : Prop where
  isOk_iff : (∃ l, whole.result = .ok l) ↔ (∃ l, first.result = .ok l) ∧ ∃ l, second.result = .ok l
  /-- The imports and the declarations of the one stand in front of those of the other. -/
  ok : ∀ l l', first.result = .ok l → second.result = .ok l' →
    whole.result = .ok {
        imports := l.imports ++ l'.imports, declarations := l.declarations ++ l'.declarations } ∧
      whole.ids = second.ids ∧ whole.symbols = second.symbols
  error_first : ∀ e, first.result = .error e → whole.result = .error e ∧ whole.ids = first.ids
  error_second : ∀ l e, first.result = .ok l → second.result = .error e →
    whole.result = .error e ∧ whole.ids = second.ids

variable {first second whole : LoweringRun} {l l' : Lowered} {e : LoweringError}

theorem joins_of_error_first (hfirst : first.result = .error e) (hwhole : whole.result = .error e)
    (hids : whole.ids = first.ids) : Joins first second whole := by
  constructor
  · simp [hfirst, hwhole]
  · simp [hfirst]
  · intro e' he
    exact ⟨hwhole.trans (hfirst.symm.trans he), hids⟩
  · simp [hfirst]

theorem joins_of_error_second (hfirst : first.result = .ok l) (hsecond : second.result = .error e)
    (hwhole : whole.result = .error e) (hids : whole.ids = second.ids) : Joins first second whole := by
  constructor
  · simp [hsecond, hwhole]
  · simp [hsecond]
  · simp [hfirst]
  · intro _ e' _ he
    exact ⟨hwhole.trans (hsecond.symm.trans he), hids⟩

theorem joins_of_ok (hfirst : first.result = .ok l) (hsecond : second.result = .ok l')
    (hwhole : whole.result = .ok {
      imports := l.imports ++ l'.imports, declarations := l.declarations ++ l'.declarations })
    (hids : whole.ids = second.ids) (hsymbols : whole.symbols = second.symbols) :
    Joins first second whole := by
  constructor
  · simp [hfirst, hsecond, hwhole]
  · intro k k' hk hk'
    obtain rfl : l = k := Except.ok.inj (hfirst.symm.trans hk)
    obtain rfl : l' = k' := Except.ok.inj (hsecond.symm.trans hk')
    exact ⟨hwhole, hids, hsymbols⟩
  · simp [hfirst]
  · simp [hsecond]

end LoweringRun

namespace Module

variable (file : String) (ids : IdSource) (symbols : SymbolTable)

/-- A module is lowered by its items. -/
theorem lowerInto_congr {m n : Module} (h : m.items = n.items) :
    m.lowerInto file ids symbols = n.lowerInto file ids symbols := by
  unfold lowerInto
  rw [h]

section Append

variable {m n whole : Module} (hparts : whole.parts = m.parts ++ n.parts)

include hparts

theorem items_eq_append : whole.items = m.items ++ n.items := by
  rw [items, hparts, List.flatMap_append, items, items]

theorem flaws_eq_append : whole.flaws = m.flaws ++ n.flaws := by
  rw [flaws, hparts, List.flatMap_append, flaws, flaws]

theorem importedNames_eq_append : whole.importedNames = m.importedNames ++ n.importedNames := by
  rw [importedNames, hparts, List.flatMap_append, importedNames, importedNames]

theorem declared_eq_append : whole.declared = m.declared ++ n.declared := by
  rw [declared, hparts, List.flatMap_append, declared, declared]

theorem declaredBeforeFlaw_eq_append (hm : m.flaws = []) :
    whole.declaredBeforeFlaw = m.declared ++ n.declaredBeforeFlaw := by
  rw [declaredBeforeFlaw, items_eq_append hparts,
    Item.beforeFlaw_append_of_eq_nil (m.flatMap_flaws.trans hm), List.flatMap_append, m.flatMap_declared,
    declaredBeforeFlaw]

theorem declaredBeforeFlaw_eq_left (hm : m.flaws ≠ []) :
    whole.declaredBeforeFlaw = m.declaredBeforeFlaw := by
  rw [declaredBeforeFlaw, items_eq_append hparts,
    Item.beforeFlaw_append_of_ne_nil (by rwa [m.flatMap_flaws]), declaredBeforeFlaw]

/-- The whole run does what the runs over the two modules do one after the other. -/
theorem joins_of_parts :
    LoweringRun.Joins (m.lowerInto file ids symbols)
      (n.lowerInto file (m.lowerInto file ids symbols).ids (m.lowerInto file ids symbols).symbols)
      (whole.lowerInto file ids symbols) := by
  have hflaws := flaws_eq_append hparts
  cases hm : m.flaws with
  | cons flaw rest =>
    have hfirst := (m.lowerInto_of_flaws_eq_cons file ids symbols hm).1
    rw [hm, List.cons_append] at hflaws
    have hwhole := (whole.lowerInto_of_flaws_eq_cons file ids symbols hflaws).1
    refine LoweringRun.joins_of_error_first hfirst hwhole ?_
    rw [ids_lowerInto, ids_lowerInto, declaredBeforeFlaw_eq_left hparts (by simp [hm])]
  | nil =>
    obtain ⟨log, hfirst⟩ := m.lowerInto_of_flaws_eq_nil file ids symbols hm
    rw [hm, List.nil_append] at hflaws
    have hids : ∀ symbols', (whole.lowerInto file ids symbols).ids
        = (n.lowerInto file (ids.skip m.declared.length) symbols').ids := by
      intro symbols'
      rw [ids_lowerInto, ids_lowerInto, IdSource.skip_skip, declaredBeforeFlaw_eq_append hparts hm,
        List.length_append]
    rw [hfirst]
    cases hn : n.flaws with
    | cons flaw rest =>
      have hsecond := (n.lowerInto_of_flaws_eq_cons file (ids.skip m.declared.length)
        (symbols.extend (.record .empty ids (m.declared.map (SourceDecl.locationIn file)))) hn).1
      have hwhole := (whole.lowerInto_of_flaws_eq_cons file ids symbols (hflaws.trans hn)).1
      exact LoweringRun.joins_of_error_second rfl hsecond hwhole (hids _)
    | nil =>
      obtain ⟨log', hsecond⟩ := n.lowerInto_of_flaws_eq_nil file (ids.skip m.declared.length)
        (symbols.extend (.record .empty ids (m.declared.map (SourceDecl.locationIn file)))) hn
      obtain ⟨log'', hwhole⟩ := whole.lowerInto_of_flaws_eq_nil file ids symbols (hflaws.trans hn)
      refine LoweringRun.joins_of_ok rfl (congrArg LoweringRun.result hsecond) ?_ (hids _) ?_
      · rw [hwhole, importedNames_eq_append hparts, declared_eq_append hparts, List.mapIdx_append]
        simp only [List.map_append, IdSource.nth_skip, Nat.add_comm]
      · rw [hwhole, hsecond, declared_eq_append hparts, List.map_append,
          SymbolTable.extend_record_append, List.length_map]

end Append

/-- **Parts.** Lowering the parts `p ++ q` is lowering `p` and then `q`, with the identifiers and the symbols that
are there by then. Splitting parts and adding empty ones, as often as one likes, changes nothing. -/
theorem joins_append :
    (∀ (position position₁ position₂ : Position) (p q : List Part),
      LoweringRun.Joins ((⟨position₁, p⟩ : Module).lowerInto file ids symbols)
        ((⟨position₂, q⟩ : Module).lowerInto file
          ((⟨position₁, p⟩ : Module).lowerInto file ids symbols).ids
          ((⟨position₁, p⟩ : Module).lowerInto file ids symbols).symbols)
        ((⟨position, p ++ q⟩ : Module).lowerInto file ids symbols)) ∧
      ∀ (position position' : Position) (p q : List Part),
        Relation.ReflTransGen Part.Regroups p q →
          (⟨position, p⟩ : Module).lowerInto file ids symbols
            = (⟨position', q⟩ : Module).lowerInto file ids symbols := by
  constructor
  · intro position position₁ position₂ p q
    exact joins_of_parts file ids symbols rfl
  · intro position position' p q h
    exact lowerInto_congr file ids symbols (flatMap_items_of_regroups h)

end Module

end FrontEnd
