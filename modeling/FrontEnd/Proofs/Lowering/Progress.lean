import FrontEnd.Proofs.Lowering.Numbering

/-!
# The walk over a module

One step of the walk fails with the first flaw of its item or, where there is none, adds to the imports,
the declarations and the symbols what the item gives (`step_snd`, `reaches_step`). The same holds for any
number of items (`walk_snd`, `reaches_walk`); `Progress.Reaches` says what has been added by then.
-/

namespace FrontEnd

/-! ## What a module says -/

/-- A struct or a function of the source. -/
inductive SourceDecl where
  | ofStruct (s : StructDecl)
  | ofFunction (f : FunctionDecl)

namespace SourceDecl

/-- Where a declaration starts. -/
def position : SourceDecl → Position
  | .ofStruct s => s.position
  | .ofFunction f => f.position

/-- What is declared, under an identifier. -/
def declaration (id : UInt64) : SourceDecl → Declaration
  | .ofStruct s => s.declaration id
  | .ofFunction f => f.declaration id

/-- The location of a declaration of a file. -/
def locationIn (file : String) (d : SourceDecl) : Location := Progress.locationIn file d.position

@[simp] theorem id_declaration (id : UInt64) (d : SourceDecl) : (d.declaration id).id = id := by
  cases d <;> rfl

end SourceDecl

/-- The names that a part imports. -/
def Part.importedNames : Part → List String
  | .imports _ items => items.flatMap Import.names
  | .structs .. => []
  | .functions .. => []

/-- The declarations of a part. -/
def Part.declared : Part → List SourceDecl
  | .imports .. => []
  | .structs _ items => items.map .ofStruct
  | .functions _ items => items.map .ofFunction

/-- The names that a module imports, in the order of the source. -/
def Module.importedNames (m : Module) : List String := m.parts.flatMap Part.importedNames

/-- The declarations of a module in the order of the source. -/
def Module.declared (m : Module) : List SourceDecl := m.parts.flatMap Part.declared

namespace Item

/-- The names that an item imports. -/
def importedNames : Item → List String
  | .ofImport i => i.names
  | .ofStruct _ => []
  | .ofFunction _ => []

/-- The declaration of an item, if it is one. -/
def declared : Item → List SourceDecl
  | .ofImport _ => []
  | .ofStruct s => [.ofStruct s]
  | .ofFunction f => [.ofFunction f]

/-- The flaws of an item. -/
def flaws : Item → List Flaw
  | .ofImport i => i.flaws
  | .ofStruct s => s.flaws
  | .ofFunction f => f.flaws

end Item

theorem Module.flatMap_importedNames (m : Module) :
    m.items.flatMap Item.importedNames = m.importedNames := by
  rw [Module.items, List.flatMap_assoc, Module.importedNames]
  congr 1
  funext part
  cases part <;> simp [Part.items, Part.importedNames, List.flatMap_map, Item.importedNames]

theorem Module.flatMap_declared (m : Module) : m.items.flatMap Item.declared = m.declared := by
  rw [Module.items, List.flatMap_assoc, Module.declared]
  congr 1
  funext part
  cases part <;>
    simp [Part.items, Part.declared, List.flatMap_map, Item.declared, ← List.map_eq_flatMap]

theorem Module.flatMap_flaws (m : Module) : m.items.flatMap Item.flaws = m.flaws := by
  rw [Module.items, List.flatMap_assoc, Module.flaws]
  congr 1
  funext part
  cases part <;> simp [Part.items, Part.flaws, List.flatMap_map, Item.flaws]

/-! ## Steps and runs -/

namespace Progress

variable {file : String} {p q r : Progress} {item : Item} {items more : List Item}

/-- What is there after some items without flaws. -/
structure Reaches (file : String) (p : Progress) (items : List Item) (q : Progress) : Prop where
  ids : q.ids = p.ids.skip (items.flatMap Item.declared).length
  imports : q.imports = p.imports ++ (items.flatMap Item.importedNames).map ImportName.mk
  declarations : q.declarations =
    p.declarations ++ (items.flatMap Item.declared).mapIdx fun k d => d.declaration (p.ids.nth k)
  symbols : q.symbols =
    p.symbols.record p.ids ((items.flatMap Item.declared).map (SourceDecl.locationIn file))

theorem Reaches.refl (file : String) (p : Progress) : Reaches file p [] p where
  ids := by simp
  imports := by simp
  declarations := by simp
  symbols := rfl

theorem Reaches.trans (hpq : Reaches file p items q) (hqr : Reaches file q more r) :
    Reaches file p (items ++ more) r where
  ids := by
    rw [hqr.ids, hpq.ids, IdSource.skip_skip, List.flatMap_append, List.length_append]
  imports := by
    rw [hqr.imports, hpq.imports, List.flatMap_append, List.map_append, List.append_assoc]
  declarations := by
    rw [hqr.declarations, hpq.declarations, hpq.ids, List.flatMap_append, List.mapIdx_append,
      List.append_assoc]
    simp only [IdSource.nth_skip, Nat.add_comm]
  symbols := by
    rw [hqr.symbols, hpq.symbols, hpq.ids, List.flatMap_append, List.map_append,
      SymbolTable.record_append, List.length_map]

/-- A declaration takes one identifier. -/
theorem reaches_declare (file : String) (p : Progress) (d : SourceDecl) (event : Event)
    (h : item.declared = [d]) (hn : item.importedNames = []) :
    Reaches file p [item] (p.declare (d.declaration p.ids.next) (d.locationIn file) event) where
  ids := by simp [declare, h, IdSource.skip_one]
  imports := by simp [declare, hn]
  declarations := by simp [declare, h]
  symbols := by simp [declare, h, SymbolTable.record]

theorem step_snd (file : String) (p : Progress) (item : Item) :
    (p.step file item).2 = item.flaws.head?.map Flaw.error := by
  cases item with
  | ofImport i =>
    obtain ⟨log, hl⟩ := i.exists_lower_eq
    simp only [step, hl, Item.flaws]
    cases i.flaws <;> rfl
  | ofStruct s =>
    simp only [step, s.lower_eq_settle, Item.flaws]
    cases s.flaws <;> rfl
  | ofFunction f =>
    simp only [step, f.lower_eq_settle, Item.flaws]
    cases f.flaws <;> rfl

theorem reaches_step (file : String) (p : Progress) (h : item.flaws = []) :
    Reaches file p [item] (p.step file item).1 := by
  cases item with
  | ofImport i =>
    obtain ⟨log, hl⟩ := i.exists_lower_eq
    simp only [step, hl, show i.flaws = [] from h, settle]
    exact {
      ids := by simp [Item.declared]
      imports := by simp [Item.importedNames]
      declarations := by simp [Item.declared]
      symbols := rfl }
  | ofStruct s =>
    simp only [step, s.lower_eq_settle, show s.flaws = [] from h, settle]
    exact reaches_declare file p (.ofStruct s) _ rfl rfl
  | ofFunction f =>
    simp only [step, f.lower_eq_settle, show f.flaws = [] from h, settle]
    exact reaches_declare file p (.ofFunction f) _ rfl rfl

/-- The walk stops with the first flaw of all items. -/
theorem walk_snd (file : String) (p : Progress) (items : List Item) :
    (p.walk file items).2 = (items.flatMap Item.flaws).head?.map Flaw.error := by
  induction items generalizing p with
  | nil => rfl
  | cons item rest ih =>
    have hstep := step_snd file p item
    rw [walk, List.flatMap_cons, List.head?_append]
    cases hf : item.flaws with
    | nil =>
      rw [hf] at hstep
      rw [show p.step file item = ((p.step file item).1, none) from Prod.ext rfl hstep]
      exact ih _
    | cons flaw flaws =>
      rw [hf] at hstep
      rw [show p.step file item = ((p.step file item).1, some flaw.error) from Prod.ext rfl hstep]
      rfl

theorem reaches_walk (file : String) (p : Progress) (h : items.flatMap Item.flaws = []) :
    Reaches file p items (p.walk file items).1 := by
  induction items generalizing p with
  | nil => exact .refl file p
  | cons item rest ih =>
    rw [List.flatMap_cons, List.append_eq_nil_iff] at h
    obtain ⟨hitem, hrest⟩ := h
    have hstep : (p.step file item).2 = none := by rw [step_snd, hitem]; rfl
    have hfirst := reaches_step file p hitem
    rw [walk, show p.step file item = ((p.step file item).1, none) from Prod.ext rfl hstep]
    exact hfirst.trans (ih _ hrest)

end Progress

end FrontEnd
