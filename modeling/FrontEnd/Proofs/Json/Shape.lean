import FrontEnd.Proofs.Json.ReadsBack
import Mathlib.Data.List.Nodup
import Mathlib.Logic.Relation

/-! # Shapes of written values

A shape says of what a value was written as where its records are, and which of their fields a reader can
do without: a field with a default may be left out where it holds that default. `Shape.Edit` changes one
record anywhere inside the JSON of a shape. The changes are of two kinds. `Harmless` ones put the fields of
a record in another order, add a field that the record does not know, or leave out a field that holds its
default; a `Harmful` one leaves out a field that the record needs.

The JSON that harmless changes lead to is what `Shape.Admits` describes: every record holds each of its
fields once, or not at all if that means the default, whatever else it holds and in whatever order. So
what is shown of all JSON that a shape admits is shown of every run of changes.
-/

namespace FrontEnd

/-- Whether a field of a record has to be there. -/
inductive Need where
  | required
  /-- A field that has a default, and whether it holds it. -/
  | optional (isDefault : Bool)
  deriving DecidableEq

mutual

/-- What a value is written as, with the needs of its records. -/
inductive Shape where
  /-- JSON that has no records in it. -/
  | leaf (json : Json)
  | list (items : List Shape)
  | record (fields : List Field)

/-- A field of a record. The tag of a variant is one of the fields that have to be there. -/
inductive Field where
  | mk (name : String) (need : Need) (shape : Shape)

end

namespace Field

def name : Field → String
  | .mk name _ _ => name

def need : Field → Need
  | .mk _ need _ => need

def shape : Field → Shape
  | .mk _ _ shape => shape

@[simp] theorem name_mk (name : String) (need : Need) (shape : Shape) :
    (mk name need shape).name = name := rfl

abbrev required (name : String) (shape : Shape) : Field := .mk name .required shape

abbrev optional (name : String) (isDefault : Bool) (shape : Shape) : Field :=
  .mk name (.optional isDefault) shape

end Field

namespace Shape

abbrev text (text : String) : Shape := .leaf (.string text)

/-- The shape of a variant. -/
abbrev tagged (key name : String) (fields : List Field) : Shape :=
  .record (.required key (.text name) :: fields)

end Shape

/-- The shape of a value that may be missing. -/
def optionShape {α : Type} (shape : α → Shape) : Option α → Shape
  | some a => shape a
  | none => .leaf .null

/-- The values that a record holds under a name. -/
def held (name : String) (given : List (String × Json)) : List Json :=
  (given.filter fun field => field.1 == name).map Prod.snd

namespace Shape

mutual

/-- The JSON of a shape, with all fields in their declared order. -/
def toJson : Shape → Json
  | .leaf json => json
  | .list items => .array (itemsToJson items)
  | .record fields => .object (fieldsToJson fields)

def itemsToJson : List Shape → List Json
  | [] => []
  | item :: rest => item.toJson :: itemsToJson rest

def fieldsToJson : List Field → List (String × Json)
  | [] => []
  | .mk name _ shape :: rest => (name, shape.toJson) :: fieldsToJson rest

end

mutual

/-- Whether JSON says the same as a shape, whatever else its records hold. -/
def Admits : Shape → Json → Prop
  | .leaf json, other => other = json
  | .list items, .array others => ItemsAdmit items others
  | .record fields, .object given => (fields.map Field.name).Nodup ∧ FieldsAdmit fields given
  | _, _ => False

def ItemsAdmit : List Shape → List Json → Prop
  | [], [] => True
  | item :: items, json :: rest => item.Admits json ∧ ItemsAdmit items rest
  | _, _ => False

def FieldsAdmit : List Field → List (String × Json) → Prop
  | [], _ => True
  | .mk name need shape :: rest, given =>
    ((held name given = [] ∧ need = .optional true) ∨
      ∃ json, held name given = [json] ∧ shape.Admits json) ∧ FieldsAdmit rest given

end

/-! ## Changes -/

/-- A change of one record, anywhere in JSON of a shape. -/
inductive Edit (change : List Field → List (String × Json) → List (String × Json) → Prop) :
    Shape → Json → Json → Prop where
  | here {fields : List Field} {given given' : List (String × Json)} :
    change fields given given' → Edit change (.record fields) (.object given) (.object given')
  | inField {fields : List Field} {name : String} {need : Need} {shape : Shape}
    {before after : List (String × Json)} {json json' : Json} :
    .mk name need shape ∈ fields → Edit change shape json json' →
    Edit change (.record fields) (.object (before ++ (name, json) :: after))
      (.object (before ++ (name, json') :: after))
  | inItem {items items' : List Shape} {shape : Shape} {before after : List Json} {json json' : Json} :
    items.length = before.length → Edit change shape json json' →
    Edit change (.list (items ++ shape :: items')) (.array (before ++ json :: after))
      (.array (before ++ json' :: after))

end Shape

/-- A change of a record that its reader does not notice. What is added has to be JSON that can be read,
and under none of the names that the record knows. -/
inductive Harmless (fields : List Field) : List (String × Json) → List (String × Json) → Prop where
  | reorder {given given' : List (String × Json)} : given.Perm given' → Harmless fields given given'
  | insert {before after : List (String × Json)} {name : String} {json : Json} :
    name ∉ fields.map Field.name → json.isReadable = true →
    Harmless fields (before ++ after) (before ++ (name, json) :: after)
  | leaveOut {before after : List (String × Json)} {name : String} {shape : Shape} {json : Json} :
    .optional name true shape ∈ fields →
    Harmless fields (before ++ (name, json) :: after) (before ++ after)

/-- The loss of a field that a record needs. -/
inductive Harmful (fields : List Field) : List (String × Json) → List (String × Json) → Prop where
  | leaveOut {before after : List (String × Json)} {name : String} {shape : Shape} {json : Json} :
    .required name shape ∈ fields →
    Harmful fields (before ++ (name, json) :: after) (before ++ after)

/-! ## What a record holds -/

section Held

variable {name other : String} {before after given given' : List (String × Json)} {json : Json}

theorem held_append : held name (before ++ after) = held name before ++ held name after := by
  simp [held]

theorem held_cons_self : held name ((name, json) :: given) = json :: held name given := by
  simp [held]

theorem held_cons_of_ne (h : other ≠ name) : held name ((other, json) :: given) = held name given := by
  simp [held, h]

theorem held_insert_of_ne (h : other ≠ name) :
    held name (before ++ (other, json) :: after) = held name (before ++ after) := by
  rw [held_append, held_cons_of_ne h, held_append]

theorem mem_of_mem_held (h : json ∈ held name given) : (name, json) ∈ given := by
  obtain ⟨⟨other, value⟩, hmem, rfl⟩ := List.mem_map.mp h
  rw [List.mem_filter, beq_iff_eq] at hmem
  exact hmem.2 ▸ hmem.1

theorem held_perm (h : given.Perm given') : (held name given).Perm (held name given') :=
  (h.filter _).map _

theorem lookup_eq_head?_held : given.lookup name = (held name given).head? := by
  induction given with
  | nil => rfl
  | cons field rest ih =>
    obtain ⟨first, json⟩ := field
    by_cases hname : first = name
    · subst hname
      rw [held_cons_self, List.lookup_cons, beq_self_eq_true, List.head?_cons]
    · rw [held_cons_of_ne hname, List.lookup_cons, beq_false_of_ne (Ne.symm hname), ← ih]

end Held

namespace Field

/-- Whether a record holds a field once, and as the shape of the field admits it, or not at all because
the default is meant. -/
def Filled (field : Field) (given : List (String × Json)) : Prop :=
  (held field.name given = [] ∧ field.need = .optional true) ∨
    ∃ json, held field.name given = [json] ∧ field.shape.Admits json

/-- Whether a record lacks a field that it needs, or holds one in which something is lost. -/
def Spoilt (field : Field) (given : List (String × Json)) : Prop :=
  (held field.name given = [] ∧ field.need = .required) ∨
    ∃ json', held field.name given = [json'] ∧
      ∃ json, field.shape.Admits json ∧ field.shape.Edit Harmful json json'

/-- Whether one field of a record is spoilt, and the others are filled. -/
def SpoiltIn (fields : List Field) (given : List (String × Json)) : Prop :=
  ∃ spoilt ∈ fields, spoilt.Spoilt given ∧
    ∀ field ∈ fields, field.name ≠ spoilt.name → field.Filled given

variable {field : Field} {name : String} {need : Need} {shape : Shape}
  {before after given given' : List (String × Json)} {json : Json}

theorem filled_iff_of_held_eq (h : held field.name given = held field.name given') :
    field.Filled given ↔ field.Filled given' := by
  rw [Filled, Filled, h]

theorem filled_insert_iff {other : String} (h : other ≠ field.name) :
    field.Filled (before ++ (other, json) :: after) ↔ field.Filled (before ++ after) :=
  filled_iff_of_held_eq (held_insert_of_ne h)

theorem filled_replace_iff {other : String} {json' : Json} (h : other ≠ field.name) :
    field.Filled (before ++ (other, json') :: after) ↔ field.Filled (before ++ (other, json) :: after) :=
  (filled_insert_iff h).trans (filled_insert_iff h).symm

/-- Where a field is filled and stands at some place, it stands there only. -/
theorem Filled.sole (h : (mk name need shape).Filled (before ++ (name, json) :: after)) :
    held name before = [] ∧ held name after = [] ∧ shape.Admits json := by
  rw [Filled, name_mk, held_append, held_cons_self] at h
  rcases h with ⟨hnone, -⟩ | ⟨only, hone, hadmits⟩
  · simp at hnone
  · obtain ⟨hbefore, heq⟩ | ⟨_, hnone⟩ := List.append_eq_singleton_iff.mp hone
    · obtain ⟨rfl, hafter⟩ := List.cons.inj heq
      exact ⟨hbefore, hafter, hadmits⟩
    · cases hnone

theorem Filled.length_held_le (h : field.Filled given) : (held field.name given).length ≤ 1 := by
  rcases h with ⟨hnone, -⟩ | ⟨json, hone, -⟩
  · simp [hnone]
  · simp [hone]

theorem Spoilt.length_held_le (h : field.Spoilt given) : (held field.name given).length ≤ 1 := by
  rcases h with ⟨hnone, -⟩ | ⟨json, hone, -⟩
  · simp [hnone]
  · simp [hone]

theorem SpoiltIn.length_held_le {fields : List Field} (h : SpoiltIn fields given) (hmem : field ∈ fields) :
    (held field.name given).length ≤ 1 := by
  obtain ⟨spoilt, _, hspoilt, hothers⟩ := h
  by_cases hname : field.name = spoilt.name
  · rw [hname]
    exact hspoilt.length_held_le
  · exact (hothers field hmem hname).length_held_le

end Field

namespace Shape

theorem fieldsAdmit_iff {fields : List Field} {given : List (String × Json)} :
    FieldsAdmit fields given ↔ ∀ field ∈ fields, field.Filled given := by
  induction fields with
  | nil => simp [FieldsAdmit]
  | cons field rest ih =>
    cases field
    rw [FieldsAdmit, ih, List.forall_mem_cons]
    rfl

theorem admits_record_iff {fields : List Field} {json : Json} :
    (record fields).Admits json ↔ ∃ given, json = .object given ∧ (fields.map Field.name).Nodup ∧
      ∀ field ∈ fields, field.Filled given := by
  cases json with
  | object given => simp [Admits, fieldsAdmit_iff]
  | _ => simp [Admits]

theorem admits_list_iff {items : List Shape} {json : Json} :
    (list items).Admits json ↔ ∃ others, json = .array others ∧ ItemsAdmit items others := by
  cases json with
  | array others => simp [Admits]
  | _ => simp [Admits]

theorem itemsAdmit_middle_iff {items items' : List Shape} {shape : Shape} {before after : List Json}
    {json : Json} (hlength : items.length = before.length) :
    ItemsAdmit (items ++ shape :: items') (before ++ json :: after) ↔
      ItemsAdmit items before ∧ shape.Admits json ∧ ItemsAdmit items' after := by
  induction items generalizing before with
  | nil =>
    obtain rfl := List.length_eq_zero_iff.mp hlength.symm
    simp [ItemsAdmit]
  | cons item items ih =>
    cases before with
    | nil => cases hlength
    | cons first before =>
      simp only [List.cons_append, ItemsAdmit, ih (Nat.succ.inj hlength), and_assoc]

/-! ## The JSON of a shape -/

theorem fieldsToJson_cons (field : Field) (rest : List Field) :
    fieldsToJson (field :: rest) = (field.name, field.shape.toJson) :: fieldsToJson rest := by
  cases field
  rfl

theorem held_fieldsToJson_of_notMem {fields : List Field} {name : String}
    (h : name ∉ fields.map Field.name) : held name (fieldsToJson fields) = [] := by
  induction fields with
  | nil => rfl
  | cons field rest ih =>
    rw [List.map_cons, List.mem_cons, not_or] at h
    rw [fieldsToJson_cons, held_cons_of_ne (Ne.symm h.1), ih h.2]

theorem held_fieldsToJson {fields : List Field} (hnodup : (fields.map Field.name).Nodup) {field : Field}
    (hmem : field ∈ fields) : held field.name (fieldsToJson fields) = [field.shape.toJson] := by
  induction fields with
  | nil => cases hmem
  | cons first rest ih =>
    rw [List.map_cons, List.nodup_cons] at hnodup
    rw [fieldsToJson_cons]
    rcases List.mem_cons.mp hmem with rfl | hrest
    · rw [held_cons_self, held_fieldsToJson_of_notMem hnodup.1]
    · have hne : first.name ≠ field.name := fun hname =>
        hnodup.1 (hname ▸ List.mem_map_of_mem hrest)
      rw [held_cons_of_ne hne, ih hnodup.2 hrest]

theorem admits_record_toJson {fields : List Field} (hnodup : (fields.map Field.name).Nodup)
    (hfields : ∀ field ∈ fields, field.shape.Admits field.shape.toJson) :
    (record fields).Admits (record fields).toJson := by
  refine admits_record_iff.mpr ⟨_, rfl, hnodup, fun field hfield => ?_⟩
  exact .inr ⟨_, held_fieldsToJson hnodup hfield, hfields field hfield⟩

end Shape

/-! ## What harmless changes lead to -/

namespace Field

variable {fields : List Field} {field : Field} {given given' : List (String × Json)}

theorem filled_of_perm (h : given.Perm given') (hfilled : field.Filled given) :
    field.Filled given' := by
  have hheld : (held field.name given).Perm (held field.name given') := held_perm h
  rcases hfilled with ⟨hnone, hneed⟩ | ⟨json, hone, hadmits⟩
  · rw [hnone, List.nil_perm] at hheld
    exact .inl ⟨hheld, hneed⟩
  · rw [hone, List.singleton_perm] at hheld
    exact .inr ⟨json, hheld.symm, hadmits⟩

/-- A field stays filled when its record is changed without harm. -/
theorem filled_of_harmless (hnodup : (fields.map name).Nodup) (hmem : field ∈ fields)
    (hchange : Harmless fields given given') (hfilled : field.Filled given) : field.Filled given' := by
  cases hchange with
  | reorder hperm => exact filled_of_perm hperm hfilled
  | @insert before after other json hother _ =>
    have hne : other ≠ field.name := by
      rintro rfl
      exact hother (List.mem_map_of_mem hmem)
    exact (filled_insert_iff hne).mpr hfilled
  | @leaveOut before after other shape json hleft =>
    by_cases hname : other = field.name
    · -- no two fields of the record share a name, so this is the one left out, and it holds its default
      obtain rfl := List.inj_on_of_nodup_map hnodup hleft hmem hname
      obtain ⟨hbefore, hafter, -⟩ := hfilled.sole
      refine .inl ⟨?_, rfl⟩
      rw [name_mk, held_append, hbefore, hafter, List.append_nil]
    · exact (filled_insert_iff hname).mp hfilled

end Field

namespace Shape

/-- **A shape admits what a harmless change makes of the JSON it admits.** By induction on the place of the
change: at its record the fields stay filled, and further out only the field on the way to it differs. -/
theorem Admits.of_harmless {shape : Shape} {json json' : Json} (hadmits : shape.Admits json)
    (h : shape.Edit Harmless json json') : shape.Admits json' := by
  induction h with
  | @here fields given given' hchange =>
    obtain ⟨_, heq, hnodup, hfilled⟩ := admits_record_iff.mp hadmits
    obtain rfl := Json.object.inj heq
    exact admits_record_iff.mpr ⟨given', rfl, hnodup, fun field hfield =>
      Field.filled_of_harmless hnodup hfield hchange (hfilled field hfield)⟩
  | @inField fields name need shape before after json json' hmem _ ih =>
    obtain ⟨_, heq, hnodup, hfilled⟩ := admits_record_iff.mp hadmits
    obtain rfl := Json.object.inj heq
    refine admits_record_iff.mpr ⟨_, rfl, hnodup, fun field hfield => ?_⟩
    by_cases hname : name = field.name
    · obtain rfl := List.inj_on_of_nodup_map hnodup hmem hfield hname
      obtain ⟨hbefore, hafter, hshape⟩ := (hfilled _ hmem).sole
      refine .inr ⟨json', ?_, ih hshape⟩
      rw [Field.name_mk, held_append, held_cons_self, hbefore, hafter, List.nil_append]
    · exact (Field.filled_replace_iff hname).mpr (hfilled field hfield)
  | inItem hlength _ ih =>
    rw [Admits, itemsAdmit_middle_iff hlength] at hadmits ⊢
    exact ⟨hadmits.1, ih hadmits.2.1, hadmits.2.2⟩

theorem isReadable_of_harmless {shape : Shape} {json json' : Json} (h : shape.Edit Harmless json json')
    (hreadable : json.isReadable = true) : json'.isReadable = true := by
  induction h with
  | here hchange =>
    rw [Json.isReadable_object] at hreadable ⊢
    cases hchange with
    | reorder hperm => exact fun field hfield => hreadable field (hperm.mem_iff.mpr hfield)
    | insert _ hjson =>
      simp only [List.forall_mem_append, List.forall_mem_cons] at hreadable ⊢
      exact ⟨hreadable.1, hjson, hreadable.2⟩
    | leaveOut _ =>
      simp only [List.forall_mem_append, List.forall_mem_cons] at hreadable ⊢
      exact ⟨hreadable.1, hreadable.2.2⟩
  | inField _ _ ih =>
    rw [Json.isReadable_object] at hreadable ⊢
    simp only [List.forall_mem_append, List.forall_mem_cons] at hreadable ⊢
    exact ⟨hreadable.1, ih hreadable.2.1, hreadable.2.2⟩
  | inItem _ _ ih =>
    rw [Json.isReadable_array] at hreadable ⊢
    simp only [List.forall_mem_append, List.forall_mem_cons] at hreadable ⊢
    exact ⟨hreadable.1, ih hreadable.2.1, hreadable.2.2⟩

theorem Admits.of_run {shape : Shape} {json json' : Json}
    (h : Relation.ReflTransGen (shape.Edit Harmless) json json') (hadmits : shape.Admits json) :
    shape.Admits json' := by
  induction h with
  | refl => exact hadmits
  | tail _ hedit ih => exact ih.of_harmless hedit

theorem isReadable_of_run {shape : Shape} {json json' : Json}
    (h : Relation.ReflTransGen (shape.Edit Harmless) json json') (hreadable : json.isReadable = true) :
    json'.isReadable = true := by
  induction h with
  | refl => exact hreadable
  | tail _ hedit ih => exact isReadable_of_harmless hedit ih

/-! ## What a harmful change leads to -/

/-- A loss in a record spoils one of its fields and leaves the others filled. -/
theorem exists_spoiltIn_of_harmful {fields : List Field} {json json' : Json}
    (hadmits : (record fields).Admits json) (h : (record fields).Edit Harmful json json') :
    ∃ given, json' = .object given ∧ Field.SpoiltIn fields given := by
  obtain ⟨given, rfl, hnodup, hfilled⟩ := admits_record_iff.mp hadmits
  cases h with
  | here hchange =>
    cases hchange with
    | @leaveOut before after name shape json hmem =>
      obtain ⟨hbefore, hafter, -⟩ := (hfilled _ hmem).sole
      refine ⟨_, rfl, _, hmem, ?_, fun field hfield hname => ?_⟩
      · refine .inl ⟨?_, rfl⟩
        rw [Field.name_mk, held_append, hbefore, hafter, List.append_nil]
      · exact (Field.filled_insert_iff (Ne.symm hname)).mp (hfilled field hfield)
  | @inField _ name need shape before after json json' hmem hedit =>
    obtain ⟨hbefore, hafter, hshape⟩ := (hfilled _ hmem).sole
    refine ⟨_, rfl, _, hmem, ?_, fun field hfield hname => ?_⟩
    · refine .inr ⟨json', ?_, json, hshape, hedit⟩
      rw [Field.name_mk, held_append, held_cons_self, hbefore, hafter, List.nil_append]
    · exact (Field.filled_replace_iff (Ne.symm hname)).mpr (hfilled field hfield)

/-- A loss in a list is a loss in one of its items. -/
theorem exists_item_of_harmful {items : List Shape} {json json' : Json}
    (hadmits : (list items).Admits json) (h : (list items).Edit Harmful json json') :
    ∃ others, json' = .array others ∧ ∃ item ∈ items, ∃ inner, ∃ inner' ∈ others,
      item.Admits inner ∧ item.Edit Harmful inner inner' := by
  cases h with
  | inItem hlength hedit =>
    rw [Admits, itemsAdmit_middle_iff hlength] at hadmits
    exact ⟨_, rfl, _, by simp, _, _, by simp, hadmits.2.1, hedit⟩

end Shape

end FrontEnd
