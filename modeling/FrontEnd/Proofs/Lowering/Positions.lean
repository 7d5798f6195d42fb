import FrontEnd.Proofs.Lowering.Stop

/-!
# Lowering does not depend on positions

`withoutPositions` puts the position without a source in the place of every position of a tree, down to
those of literal values. All that the lowering of a module reads commutes with it: a flaw keeps its defect,
an import its names, and a declaration is copied as it was. Two modules that are the same but for their
positions are therefore lowered in step (`Module.lowersAlike_of_sameButPositions`). Both fail, with the same
defect, or both give the same imports and the same declarations, each under the identifiers of its own
source. Positions and file names show in the symbols and in the errors, and nowhere else.
-/

namespace FrontEnd

/-! ## Trees without positions -/

mutual

/-- A value without positions. -/
def Value.withoutPositions : Value → Value
  | .scalar kind _ text => .scalar kind {} text
  | .group kind _ members => .group kind {} (Value.allWithoutPositions members)

def Value.allWithoutPositions : List Value → List Value
  | [] => []
  | v :: vs => v.withoutPositions :: Value.allWithoutPositions vs

end

namespace Expression

mutual

/-- An expression without positions, in what is nested in it and what follows it too. -/
def withoutPositions : Expression → Expression
  | .blockConditional _ condition execution branches alternative =>
    .blockConditional {} condition.withoutPositions (allWithoutPositions execution)
      (branchesWithoutPositions branches) (allWithoutPositions alternative)
  | .label _ name resolution => .label {} name resolution.withoutPositions
  | .inlineConditional _ condition execution =>
    .inlineConditional {} condition.withoutPositions execution.withoutPositions
  | .parenthetical _ execution next =>
    .parenthetical {} execution.withoutPositions (nextWithoutPositions next)
  | .capture _ execution next => .capture {} execution.withoutPositions (nextWithoutPositions next)
  | .reference _ names next => .reference {} names (nextWithoutPositions next)
  | .operator _ sign next => .operator {} sign (nextWithoutPositions next)
  | .literal _ value => .literal {} value.withoutPositions

def allWithoutPositions : List Expression → List Expression
  | [] => []
  | e :: es => e.withoutPositions :: allWithoutPositions es

def branchesWithoutPositions : List SubConditional → List SubConditional
  | [] => []
  | .mk _ condition execution :: rest =>
    .mk {} condition.withoutPositions (allWithoutPositions execution) :: branchesWithoutPositions rest

def nextWithoutPositions : Option Expression → Option Expression
  | none => none
  | some e => some e.withoutPositions

end

end Expression

def Input.withoutPositions (i : Input) : Input := { i with position := {} }

def StructDecl.withoutPositions (s : StructDecl) : StructDecl where
  position := {}
  name := s.name
  fields := s.fields.map Input.withoutPositions

def Pattern.withoutPositions (p : Pattern) : Pattern where
  position := {}
  name := p.name
  params := p.params
  definition := p.definition.withoutPositions

def Body.withoutPositions : Body → Body
  | .constexpr _ expressions => .constexpr {} (expressions.map Expression.withoutPositions)
  | .block _ instructions => .block {} (instructions.map Expression.withoutPositions)
  | .pattern _ patterns => .pattern {} (patterns.map Pattern.withoutPositions)

def FunctionDecl.withoutPositions (f : FunctionDecl) : FunctionDecl where
  position := {}
  annotation := f.annotation
  returnType := f.returnType
  name := f.name
  inputs := f.inputs.map Input.withoutPositions
  body := f.body.withoutPositions

def Import.withoutPositions : Import → Import
  | .single _ name => .single {} name
  | .list _ names => .list {} names

def Part.withoutPositions : Part → Part
  | .imports _ items => .imports {} (items.map Import.withoutPositions)
  | .structs _ items => .structs {} (items.map StructDecl.withoutPositions)
  | .functions _ items => .functions {} (items.map FunctionDecl.withoutPositions)

/-- A module without positions. -/
def Module.withoutPositions (m : Module) : Module where
  position := {}
  parts := m.parts.map Part.withoutPositions

/-- Two modules differ in their positions only, wherever in the module these are. -/
def Module.SameButPositions (m n : Module) : Prop := m.withoutPositions = n.withoutPositions

instance (m n : Module) : Decidable (m.SameButPositions n) :=
  inferInstanceAs (Decidable (m.withoutPositions = n.withoutPositions))

/-! ## Flaws -/

/-- A flaw as it is in the tree without positions. -/
def Flaw.withoutPosition (flaw : Flaw) : Flaw := { flaw with position := {} }

/-- What holds of the flaws of each node of a list holds of those of the list. -/
theorem flatMap_flaws_map {α : Type} {flaws : α → List Flaw} {strip : α → α}
    (h : ∀ a, flaws (strip a) = (flaws a).map Flaw.withoutPosition) (nodes : List α) :
    (nodes.map strip).flatMap flaws = (nodes.flatMap flaws).map Flaw.withoutPosition := by
  rw [List.flatMap_map, List.map_flatMap]
  simp only [h]

theorem unnamed_withoutPosition (defect : Defect) (position : Position) (name : String) :
    unnamed defect {} name = (unnamed defect position name).map Flaw.withoutPosition := by
  unfold unnamed
  split <;> rfl

theorem TypeExpr.flaws_withoutPosition (position : Position) (t : TypeExpr) :
    t.flaws {} = (t.flaws position).map Flaw.withoutPosition := by
  unfold TypeExpr.flaws
  rw [List.map_flatMap]
  simp only [← unnamed_withoutPosition]

theorem Input.flaws_withoutPositions (i : Input) :
    i.withoutPositions.flaws = i.flaws.map Flaw.withoutPosition := by
  unfold Input.flaws
  rw [List.map_append, ← unnamed_withoutPosition, ← TypeExpr.flaws_withoutPosition]
  rfl

namespace Expression

/-- A place as it is in the tree without positions. -/
def placeWithoutPositions (place : Expression × Category) : Expression × Category :=
  (place.1.withoutPositions, place.2)

mutual

theorem places_withoutPositions (category : Category) :
    ∀ e : Expression, places category e.withoutPositions = (places category e).map placeWithoutPositions
  | .blockConditional _ condition execution branches alternative => by
    simp only [withoutPositions, places, List.map_cons, List.map_append, placeWithoutPositions,
      places_withoutPositions .block condition, placesOfAll_withoutPositions category.nested execution,
      placesOfBranches_withoutPositions category.nested branches,
      placesOfAll_withoutPositions category.nested alternative]
  | .label _ _ resolution => by
    simp only [withoutPositions, places, List.map_cons, placeWithoutPositions,
      places_withoutPositions category.nested resolution]
  | .inlineConditional _ condition execution => by
    simp only [withoutPositions, places, List.map_cons, List.map_append, placeWithoutPositions,
      places_withoutPositions category.nested condition,
      places_withoutPositions category.nested execution]
  | .parenthetical _ execution next => by
    simp only [withoutPositions, places, List.map_cons, List.map_append, placeWithoutPositions,
      places_withoutPositions category.nested execution,
      placesOfNext_withoutPositions category.nested next]
  | .capture _ execution next => by
    simp only [withoutPositions, places, List.map_cons, List.map_append, placeWithoutPositions,
      places_withoutPositions category.nested execution,
      placesOfNext_withoutPositions category.nested next]
  | .reference _ _ next => by
    simp only [withoutPositions, places, List.map_cons, placeWithoutPositions,
      placesOfNext_withoutPositions category.nested next]
  | .operator _ _ next => by
    simp only [withoutPositions, places, List.map_cons, placeWithoutPositions,
      placesOfNext_withoutPositions category.nested next]
  | .literal _ _ => rfl

theorem placesOfAll_withoutPositions (category : Category) :
    ∀ es : List Expression,
      placesOfAll category (allWithoutPositions es) = (placesOfAll category es).map placeWithoutPositions
  | [] => rfl
  | e :: es => by
    simp only [allWithoutPositions, placesOfAll, List.map_append, places_withoutPositions category e,
      placesOfAll_withoutPositions category es]

theorem placesOfBranches_withoutPositions (category : Category) :
    ∀ branches : List SubConditional,
      placesOfBranches category (branchesWithoutPositions branches)
        = (placesOfBranches category branches).map placeWithoutPositions
  | [] => rfl
  | .mk _ condition execution :: rest => by
    simp only [branchesWithoutPositions, placesOfBranches, List.map_append,
      places_withoutPositions category condition, placesOfAll_withoutPositions category execution,
      placesOfBranches_withoutPositions category rest]

theorem placesOfNext_withoutPositions (category : Category) :
    ∀ next : Option Expression,
      placesOfNext category (nextWithoutPositions next)
        = (placesOfNext category next).map placeWithoutPositions
  | none => rfl
  | some e => places_withoutPositions category e

end

/-- Whether an expression belongs at a place is seen from its kind. -/
theorem misplacement_withoutPositions (place : Expression × Category) :
    misplacement (placeWithoutPositions place) = (misplacement place).map Flaw.withoutPosition := by
  obtain ⟨e, category⟩ := place
  have hkind : e.withoutPositions.kind = e.kind := by cases e <;> rfl
  have hposition : e.withoutPositions.position = {} := by cases e <;> rfl
  have hbelongs : e.withoutPositions.belongsTo category = e.belongsTo category := by
    cases category <;> cases e <;> rfl
  simp only [misplacement, placeWithoutPositions, hkind, hposition, hbelongs]
  split <;> rfl

theorem flaws_withoutPositions (category : Category) (e : Expression) :
    e.withoutPositions.flaws category = (e.flaws category).map Flaw.withoutPosition := by
  unfold flaws
  rw [places_withoutPositions, List.flatMap_map, List.map_flatMap]
  simp only [misplacement_withoutPositions]

end Expression

theorem Pattern.flaws_withoutPositions (p : Pattern) :
    p.withoutPositions.flaws = p.flaws.map Flaw.withoutPosition := by
  unfold Pattern.flaws
  rw [List.map_append, ← unnamed_withoutPosition, ← Expression.flaws_withoutPositions]
  rfl

theorem Body.flaws_withoutPositions (b : Body) :
    b.withoutPositions.flaws = b.flaws.map Flaw.withoutPosition := by
  cases b with
  | constexpr _ expressions => exact flatMap_flaws_map (Expression.flaws_withoutPositions _) expressions
  | block _ instructions => exact flatMap_flaws_map (Expression.flaws_withoutPositions _) instructions
  | pattern _ patterns => exact flatMap_flaws_map Pattern.flaws_withoutPositions patterns

theorem Import.names_withoutPositions (i : Import) : i.withoutPositions.names = i.names := by
  cases i <;> rfl

theorem Import.flaws_withoutPositions (i : Import) :
    i.withoutPositions.flaws = i.flaws.map Flaw.withoutPosition := by
  have hposition : i.withoutPositions.position = {} := by cases i <;> rfl
  unfold Import.flaws
  rw [i.names_withoutPositions, hposition]
  split
  · rfl
  · rw [List.map_flatMap]
    simp only [← unnamed_withoutPosition]

theorem StructDecl.flaws_withoutPositions (s : StructDecl) :
    s.withoutPositions.flaws = s.flaws.map Flaw.withoutPosition := by
  unfold StructDecl.flaws
  rw [List.map_append, ← unnamed_withoutPosition, ← flatMap_flaws_map Input.flaws_withoutPositions]
  rfl

theorem returnTypeFlaws_withoutPosition (position : Position) (type : Option TypeExpr) :
    returnTypeFlaws {} type = (returnTypeFlaws position type).map Flaw.withoutPosition := by
  cases type with
  | none => rfl
  | some t => exact t.flaws_withoutPosition position

theorem FunctionDecl.flaws_withoutPositions (f : FunctionDecl) :
    f.withoutPositions.flaws = f.flaws.map Flaw.withoutPosition := by
  unfold FunctionDecl.flaws
  rw [List.map_append, List.map_append, List.map_append, ← unnamed_withoutPosition,
    ← flatMap_flaws_map Input.flaws_withoutPositions, ← returnTypeFlaws_withoutPosition,
    ← Body.flaws_withoutPositions]
  rfl

/-! ## Items -/

def SourceDecl.withoutPositions : SourceDecl → SourceDecl
  | .ofStruct s => .ofStruct s.withoutPositions
  | .ofFunction f => .ofFunction f.withoutPositions

/-- The copy of a declaration holds no positions. -/
theorem SourceDecl.declaration_withoutPositions (id : UInt64) (d : SourceDecl) :
    d.withoutPositions.declaration id = d.declaration id := by
  have hinputs : ∀ inputs : List Input,
      (inputs.map Input.withoutPositions).map Input.parameter = inputs.map Input.parameter := by
    intro inputs
    rw [List.map_map]
    rfl
  cases d with
  | ofStruct s =>
    simp only [withoutPositions, declaration, StructDecl.declaration, StructDecl.withoutPositions, hinputs]
  | ofFunction f =>
    simp only [withoutPositions, declaration, FunctionDecl.declaration, FunctionDecl.withoutPositions,
      hinputs]

namespace Item

def withoutPositions : Item → Item
  | .ofImport i => .ofImport i.withoutPositions
  | .ofStruct s => .ofStruct s.withoutPositions
  | .ofFunction f => .ofFunction f.withoutPositions

theorem flaws_withoutPositions (item : Item) :
    item.withoutPositions.flaws = item.flaws.map Flaw.withoutPosition := by
  cases item with
  | ofImport i => exact i.flaws_withoutPositions
  | ofStruct s => exact s.flaws_withoutPositions
  | ofFunction f => exact f.flaws_withoutPositions

theorem importedNames_withoutPositions (item : Item) :
    item.withoutPositions.importedNames = item.importedNames := by
  cases item with
  | ofImport i => exact i.names_withoutPositions
  | ofStruct s => rfl
  | ofFunction f => rfl

theorem declared_withoutPositions (item : Item) :
    item.withoutPositions.declared = item.declared.map SourceDecl.withoutPositions := by
  cases item <;> rfl

theorem beforeFlaw_map_withoutPositions (items : List Item) :
    beforeFlaw (items.map withoutPositions) = (beforeFlaw items).map withoutPositions := by
  have hempty : ∀ item : Item, item.withoutPositions.flaws.isEmpty = item.flaws.isEmpty := by
    intro item
    rw [item.flaws_withoutPositions, List.isEmpty_map]
  unfold beforeFlaw
  rw [List.takeWhile_map]
  simp only [Function.comp_def, hempty]

end Item

namespace Module

theorem items_withoutPositions (m : Module) :
    m.withoutPositions.items = m.items.map Item.withoutPositions := by
  unfold items
  rw [withoutPositions, List.flatMap_map, List.map_flatMap]
  congr 1
  funext part
  cases part <;> simp [Part.withoutPositions, Part.items, Item.withoutPositions]

theorem flaws_withoutPositions (m : Module) :
    m.withoutPositions.flaws = m.flaws.map Flaw.withoutPosition := by
  rw [← flatMap_flaws, items_withoutPositions, flatMap_flaws_map Item.flaws_withoutPositions,
    flatMap_flaws]

theorem importedNames_withoutPositions (m : Module) :
    m.withoutPositions.importedNames = m.importedNames := by
  rw [← flatMap_importedNames, items_withoutPositions, List.flatMap_map, ← flatMap_importedNames]
  simp only [Item.importedNames_withoutPositions]

theorem declared_withoutPositions (m : Module) :
    m.withoutPositions.declared = m.declared.map SourceDecl.withoutPositions := by
  rw [← flatMap_declared, items_withoutPositions, List.flatMap_map, ← flatMap_declared,
    List.map_flatMap]
  simp only [Item.declared_withoutPositions]

theorem declaredBeforeFlaw_withoutPositions (m : Module) :
    m.withoutPositions.declaredBeforeFlaw = m.declaredBeforeFlaw.map SourceDecl.withoutPositions := by
  unfold declaredBeforeFlaw
  rw [items_withoutPositions, Item.beforeFlaw_map_withoutPositions, List.flatMap_map, List.map_flatMap]
  simp only [Item.declared_withoutPositions]

end Module

/-! ## Identifiers of two sources -/

/-- How far the identifiers of one source are from those of another one. -/
def IdSource.offset (ids ids' : IdSource) : UInt64 := ids'.next - ids.next

theorem IdSource.nth_add_offset (ids ids' : IdSource) (k : Nat) :
    ids.nth k + ids.offset ids' = ids'.nth k := by
  unfold nth offset
  rw [UInt64.add_comm ids.next, UInt64.add_assoc, UInt64.add_comm ids.next, UInt64.sub_add_cancel,
    UInt64.add_comm]

/-- The declaration under an identifier that is an offset further on. -/
def Declaration.shift (offset : UInt64) (d : Declaration) : Declaration :=
  { d with id := d.id + offset }

theorem SourceDecl.shift_declaration (offset id : UInt64) (d : SourceDecl) :
    (d.declaration id).shift offset = d.declaration (id + offset) := by
  cases d <;> rfl

namespace Module

variable {m n : Module}

/-! ## Two runs -/

/-- What two lowered modules have in common, one of a module `m` and one of a module `n` that differs from it
in its positions only. -/
structure LoweredAlike (m n : Module) (file file' : String) (ids ids' : IdSource)
    (symbols symbols' : SymbolTable) (l l' : Lowered) : Prop where
  imports : l'.imports = l.imports
  /-- The declarations are the same under shifted identifiers. -/
  declarations : l'.declarations = l.declarations.map (Declaration.shift (ids.offset ids'))
  /-- The shift is the difference of the first identifiers, and nothing wraps around. -/
  offset : ∀ d ∈ l.declarations,
    ids.next.toNat + (d.shift (ids.offset ids')).id.toNat = ids'.next.toNat + d.id.toNat
  /-- The symbol of a declaration is made of the file and of the position in the source. -/
  symbols : ∀ (k : Nat) (d d' : Declaration), l.declarations[k]? = some d →
    l'.declarations[k]? = some d' →
      ∃ s s' : SourceDecl, m.declared[k]? = some s ∧ n.declared[k]? = some s' ∧
        s.withoutPositions = s'.withoutPositions ∧
        symbols.find? d.id = some (.ofCounts file s.position.line s.position.column) ∧
        symbols'.find? d'.id = some (.ofCounts file' s'.position.line s'.position.column)

/-- What the runs over two such modules have in common. -/
structure LowersAlike (m n : Module) (file file' : String) (ids ids' : IdSource)
    (run run' : LoweringRun) : Prop where
  /-- Both succeed or both fail. -/
  isOk_iff : (∃ l, run.result = .ok l) ↔ ∃ l, run'.result = .ok l
  lowered : ∀ l l', run.result = .ok l → run'.result = .ok l' →
    LoweredAlike m n file file' ids ids' run.symbols run'.symbols l l'
  /-- The errors tell of the same defect. -/
  errors : ∀ e e', run.result = .error e → run'.result = .error e' →
    ∃ what reason position position',
      e = .malformed what position reason ∧ e' = .malformed what position' reason
  /-- As many identifiers are taken. -/
  advance : ∃ k, run.ids.next.toNat = ids.next.toNat + k ∧ run'.ids.next.toNat = ids'.next.toNat + k

theorem SameButPositions.flaws (h : m.SameButPositions n) :
    m.flaws.map Flaw.withoutPosition = n.flaws.map Flaw.withoutPosition := by
  rw [← flaws_withoutPositions, ← flaws_withoutPositions, h]

theorem SameButPositions.importedNames (h : m.SameButPositions n) :
    m.importedNames = n.importedNames := by
  rw [← m.importedNames_withoutPositions, ← n.importedNames_withoutPositions, h]

theorem SameButPositions.declared (h : m.SameButPositions n) :
    m.declared.map SourceDecl.withoutPositions = n.declared.map SourceDecl.withoutPositions := by
  rw [← declared_withoutPositions, ← declared_withoutPositions, h]

/-- The source declarations at one place, of which both modules have as many. -/
theorem SameButPositions.getElem?_declared (h : m.SameButPositions n) (k : Nat) :
    m.declared[k]?.map SourceDecl.withoutPositions = n.declared[k]?.map SourceDecl.withoutPositions := by
  rw [← List.getElem?_map, ← List.getElem?_map, h.declared]

theorem SameButPositions.length_declaredBeforeFlaw (h : m.SameButPositions n) :
    m.declaredBeforeFlaw.length = n.declaredBeforeFlaw.length := by
  rw [← List.length_map SourceDecl.withoutPositions, ← declaredBeforeFlaw_withoutPositions, h,
    declaredBeforeFlaw_withoutPositions, List.length_map]

/-- Declarations that are the same but for positions are copied alike. -/
theorem SameButPositions.mapIdx_declaration (h : m.SameButPositions n) (ids ids' : IdSource) :
    n.declared.mapIdx (fun k d => d.declaration (ids'.nth k))
      = (m.declared.mapIdx fun k d => d.declaration (ids.nth k)).map
          (Declaration.shift (ids.offset ids')) := by
  apply List.ext_getElem?
  intro k
  have hk := h.getElem?_declared k
  rw [List.getElem?_map, List.getElem?_mapIdx, List.getElem?_mapIdx, Option.map_map]
  cases hm : m.declared[k]? with
  | none =>
    rw [hm, Option.map_none] at hk
    rw [Option.map_eq_none_iff.mp hk.symm]
    rfl
  | some s =>
    rw [hm, Option.map_some] at hk
    obtain ⟨s', hn, hs⟩ := Option.map_eq_some_iff.mp hk.symm
    rw [hn, Option.map_some, Option.map_some, Function.comp_apply, SourceDecl.shift_declaration,
      IdSource.nth_add_offset, ← s.declaration_withoutPositions, ← hs, s'.declaration_withoutPositions]

/-- Where the declaration at one place of a lowered module is bound. -/
theorem find?_lowerInto (m : Module) (file : String) (ids : IdSource) (symbols : SymbolTable)
    (hflaws : m.flaws = []) (hroom : ids.next.toNat + m.declared.length < UInt64.size) {k : Nat}
    {s : SourceDecl} (hs : m.declared[k]? = some s) :
    (m.lowerInto file ids symbols).symbols.find? (ids.nth k) = some (s.locationIn file) := by
  have hk : k < m.declared.length := (List.getElem?_eq_some_iff.mp hs).1
  obtain ⟨log, hrun⟩ := m.lowerInto_of_flaws_eq_nil file ids symbols hflaws
  rw [hrun, SymbolTable.find?_extend_record_nth symbols (by rwa [List.length_map])
    (by rwa [List.length_map]), List.getElem?_map, hs, Option.map_some]

/-- What a module without flaws is lowered to. -/
def plainCopy (m : Module) (ids : IdSource) : Lowered where
  imports := m.importedNames.map ImportName.mk
  declarations := m.declared.mapIdx fun k d => d.declaration (ids.nth k)

theorem SameButPositions.loweredAlike (h : m.SameButPositions n) (file file' : String)
    (ids ids' : IdSource) (symbols symbols' : SymbolTable) (hm : m.flaws = []) (hn : n.flaws = [])
    (hroom : ids.next.toNat + m.declared.length < UInt64.size)
    (hroom' : ids'.next.toNat + n.declared.length < UInt64.size) :
    LoweredAlike m n file file' ids ids' (m.lowerInto file ids symbols).symbols
      (n.lowerInto file' ids' symbols').symbols (m.plainCopy ids) (n.plainCopy ids') where
  imports := by rw [plainCopy, plainCopy, h.importedNames]
  declarations := h.mapIdx_declaration ids ids'
  offset := by
    intro d hd
    obtain ⟨k, hk, rfl⟩ := List.mem_mapIdx.mp hd
    have hlength : m.declared.length = n.declared.length := by
      simpa only [List.length_map] using congrArg List.length h.declared
    rw [SourceDecl.shift_declaration, IdSource.nth_add_offset, SourceDecl.id_declaration,
      SourceDecl.id_declaration, IdSource.toNat_nth (by omega), IdSource.toNat_nth (by omega)]
    omega
  symbols := by
    intro k d d' hd hd'
    rw [plainCopy, List.getElem?_mapIdx, Option.map_eq_some_iff] at hd hd'
    obtain ⟨s, hs, rfl⟩ := hd
    obtain ⟨s', hs', rfl⟩ := hd'
    have hsame := h.getElem?_declared k
    rw [hs, hs', Option.map_some, Option.map_some, Option.some.injEq] at hsame
    rw [SourceDecl.id_declaration, SourceDecl.id_declaration]
    exact ⟨s, s', hs, hs', hsame, m.find?_lowerInto file ids symbols hm hroom hs,
      n.find?_lowerInto file' ids' symbols' hn hroom' hs'⟩

/-- **Positions.** Two modules that differ in their positions only are lowered alike, whatever the files, the
sources of identifiers and the symbols. -/
theorem lowersAlike_of_sameButPositions (file file' : String) (ids ids' : IdSource)
    (symbols symbols' : SymbolTable) (h : m.SameButPositions n)
    (hroom : ids.next.toNat + m.declaredBeforeFlaw.length < UInt64.size)
    (hroom' : ids'.next.toNat + n.declaredBeforeFlaw.length < UInt64.size) :
    LowersAlike m n file file' ids ids' (m.lowerInto file ids symbols)
      (n.lowerInto file' ids' symbols') := by
  have hflaws := h.flaws
  have hadvance : ∃ k, (m.lowerInto file ids symbols).ids.next.toNat = ids.next.toNat + k ∧
      (n.lowerInto file' ids' symbols').ids.next.toNat = ids'.next.toNat + k := by
    refine ⟨m.declaredBeforeFlaw.length, ?_, ?_⟩
    · rw [ids_lowerInto]
      exact IdSource.toNat_nth hroom
    · rw [ids_lowerInto, h.length_declaredBeforeFlaw]
      exact IdSource.toNat_nth hroom'
  have hresult := m.lowerInto_result file ids symbols
  have hresult' := n.lowerInto_result file' ids' symbols'
  cases hm : m.flaws with
  | nil =>
    have hn : n.flaws = [] := by
      rw [hm] at hflaws
      exact List.map_eq_nil_iff.mp hflaws.symm
    rw [m.declaredBeforeFlaw_of_flaws_eq_nil hm] at hroom
    rw [n.declaredBeforeFlaw_of_flaws_eq_nil hn] at hroom'
    have halike := h.loweredAlike file file' ids ids' symbols symbols' hm hn hroom hroom'
    rw [hm] at hresult
    rw [hn] at hresult'
    refine ⟨⟨fun _ => ⟨_, hresult'⟩, fun _ => ⟨_, hresult⟩⟩, ?_, ?_, hadvance⟩
    · intro l l' hl hl'
      obtain rfl : m.plainCopy ids = l := Except.ok.inj (hresult.symm.trans hl)
      obtain rfl : n.plainCopy ids' = l' := Except.ok.inj (hresult'.symm.trans hl')
      exact halike
    · intro e e' he
      cases hresult.symm.trans he
  | cons flaw rest =>
    obtain ⟨flaw', rest', hn, hflaw, -⟩ : ∃ flaw' rest', n.flaws = flaw' :: rest' ∧
        flaw'.withoutPosition = flaw.withoutPosition ∧ _ := by
      rw [hm] at hflaws
      exact List.map_eq_cons_iff.mp hflaws.symm
    have hdefect : flaw'.defect = flaw.defect := by
      show flaw'.withoutPosition.defect = flaw.withoutPosition.defect
      rw [hflaw]
    rw [hm] at hresult
    rw [hn] at hresult'
    refine ⟨?_, ?_, ?_, hadvance⟩
    · constructor
      · rintro ⟨l, hl⟩
        cases hresult.symm.trans hl
      · rintro ⟨l, hl⟩
        cases hresult'.symm.trans hl
    · intro l l' hl
      cases hresult.symm.trans hl
    · intro e e' he he'
      obtain rfl : flaw.error = e := Except.error.inj (hresult.symm.trans he)
      obtain rfl : flaw'.error = e' := Except.error.inj (hresult'.symm.trans he')
      refine ⟨flaw.defect.what, flaw.defect.reason, flaw.position, flaw'.position, rfl, ?_⟩
      rw [Flaw.error, hdefect]

theorem lowersAlike_samples :
    (sample.SameButPositions sample.withoutPositions ∧
      LowersAlike sample sample.withoutPositions "main" "other" ⟨7⟩ ⟨3⟩
        (sample.lowerInto "main" ⟨7⟩ .empty)
        (sample.withoutPositions.lowerInto "other" ⟨3⟩ (SymbolTable.insert .empty 8 (.ofCounts "old" 1 1)))) ∧
      (flawedSample.SameButPositions flawedSample.withoutPositions ∧
        LowersAlike flawedSample flawedSample.withoutPositions "main" "other" ⟨7⟩ ⟨3⟩
          (flawedSample.lowerInto "main" ⟨7⟩ .empty)
          (flawedSample.withoutPositions.lowerInto "other" ⟨3⟩ .empty)) := by
  have hsample : sample.SameButPositions sample.withoutPositions := by decide
  have hflawed : flawedSample.SameButPositions flawedSample.withoutPositions := by decide
  exact ⟨⟨hsample, lowersAlike_of_sameButPositions _ _ _ _ _ _ hsample (by decide) (by decide)⟩,
    hflawed, lowersAlike_of_sameButPositions _ _ _ _ _ _ hflawed (by decide) (by decide)⟩

end Module

end FrontEnd
