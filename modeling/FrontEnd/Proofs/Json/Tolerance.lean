import FrontEnd.Proofs.Json.Shape

/-! # Readers that follow a shape

A reader follows the shape of a value if it takes all JSON that the shape admits, as far as it has room for
it, and gives the value, and refuses what a harmful change makes of such JSON. The law is assembled like
the readers are. The reader of a field follows it if it takes what may stand in its slot. The readers of
the fields of a record are a list, and what they read goes to a function of as many arguments; they take
all or nothing, so one slot that is refused refuses the record. A variant adds the tag, and lists need the
law of each item.
-/

namespace FrontEnd

/-- What a record holds for the field of a name. -/
def slotOf (given : List (String × Json)) (name : String) : Json.Slot :=
  (given.lookup name).elim .absent .given

namespace Json.Slot

/-- Whether a slot fills a field, with JSON that can be read within some room. -/
def Fits (field : Field) (room : Nat) : Slot → Prop
  | .given json => field.shape.Admits json ∧ json.depth ≤ room ∧ json.isReadable = true
  | .absent => field.need = .optional true
  | .ended => False

/-- Whether a slot lacks what the field needs. -/
def Spoils (field : Field) : Slot → Prop
  | .given json' => ∃ json, field.shape.Admits json ∧ field.shape.Edit Harmful json json'
  | .absent => field.need = .required
  | .ended => False

end Json.Slot

/-! ## The slots of a record -/

section Slots

variable {field : Field} {name : String} {given : List (String × Json)} {json : Json}

theorem slotOf_of_held_eq_nil (h : held name given = []) : slotOf given name = .absent := by
  rw [slotOf, lookup_eq_head?_held, h]
  rfl

theorem slotOf_of_held_eq_singleton (h : held name given = [json]) :
    slotOf given name = .given json := by
  rw [slotOf, lookup_eq_head?_held, h]
  rfl

/-- A record that holds each of some names once at most has a slot for each. -/
theorem slots?_eq_some {names : List String} (h : ∀ name ∈ names, (held name given).length ≤ 1) :
    (Json.object given).slots? names = some (names.map (slotOf given)) := by
  have honce : (names.all fun name => (given.filter fun field => field.1 == name).length ≤ 1) = true := by
    rw [List.all_eq_true]
    intro name hname
    simpa [held] using h name hname
  rw [Json.slots?, if_pos honce]
  rfl

namespace Field

theorem Filled.fits {room : Nat} (h : field.Filled given)
    (hgiven : ∀ held ∈ given, held.2.depth ≤ room ∧ held.2.isReadable = true) :
    (slotOf given field.name).Fits field room := by
  rcases h with ⟨hnone, hneed⟩ | ⟨json, hone, hadmits⟩
  · rwa [slotOf_of_held_eq_nil hnone]
  · rw [slotOf_of_held_eq_singleton hone]
    exact ⟨hadmits, hgiven _ (mem_of_mem_held (hone ▸ List.mem_singleton_self json))⟩

theorem Spoilt.spoils (h : field.Spoilt given) : (slotOf given field.name).Spoils field := by
  rcases h with ⟨hnone, hneed⟩ | ⟨json, hone, hlost⟩
  · rwa [slotOf_of_held_eq_nil hnone]
  · rwa [slotOf_of_held_eq_singleton hone]

end Field

end Slots

/-! ## The laws -/

/-- **Following a shape.** What is read of all JSON that a shape admits is the same value, and of what a
harmful change makes of it nothing is read. -/
structure Reads {α : Type} (read : Nat → Json → Option α) (shape : Shape) (a : α) : Prop where
  admits : shape.Admits shape.toJson
  read_eq_some : ∀ room json, shape.Admits json → json.depth ≤ room → json.isReadable = true →
    read room json = some a
  read_eq_none : ∀ room json json', shape.Admits json → shape.Edit Harmful json json' →
    read room json' = none

/-- The law for a field and the reader of its slot. -/
structure FieldReads {α : Type} (read : Nat → Json.Slot → Option α) (field : Field) (a : α) : Prop where
  admits : field.shape.Admits field.shape.toJson
  read_eq_some : ∀ room slot, slot.Fits field room → read room slot = some a
  read_eq_none : ∀ room slot, slot.Spoils field → read room slot = none

/-- The law for the fields of a record, which are read with the room inside it. -/
structure RecordReads {α : Type} (read : Nat → Json → Option α) (fields : List Field) (a : α) : Prop where
  nodup : (fields.map Field.name).Nodup
  admits : ∀ field ∈ fields, field.shape.Admits field.shape.toJson
  read_eq_some : ∀ room given, (∀ field ∈ fields, field.Filled given) →
    (∀ held ∈ given, held.2.depth ≤ room ∧ held.2.isReadable = true) →
    read room (.object given) = some a
  read_eq_none : ∀ room given, Field.SpoiltIn fields given → read room (.object given) = none

/-! ## Records -/

/-- Readers of the slots of a record, one for each argument of a function that makes the value. -/
inductive SlotReaders (α : Type) : Type → Type 1 where
  | nil : SlotReaders α α
  | cons {β γ : Type} (read : Nat → Json.Slot → Option β) (rest : SlotReaders α γ) : SlotReaders α (β → γ)

/-- Reads as many slots as there are readers, and gives all that is read to a function. -/
def SlotReaders.run {α γ : Type} : SlotReaders α γ → γ → Nat → List Json.Slot → Option α
  | .nil, a, _, [] => some a
  | .cons read rest, make, room, slot :: slots =>
    (read room slot).bind fun b => rest.run (make b) room slots
  | _, _, _, _ => none

/-- The law for some fields and their readers. -/
inductive FieldsRead {α : Type} : {γ : Type} → SlotReaders α γ → γ → List Field → α → Prop where
  | nil (a : α) : FieldsRead .nil a [] a
  | cons {β γ : Type} {read : Nat → Json.Slot → Option β} {readers : SlotReaders α γ} {make : β → γ}
    {field : Field} {fields : List Field} {b : β} {a : α} :
    FieldReads read field b → FieldsRead readers (make b) fields a →
    FieldsRead (.cons read readers) make (field :: fields) a

namespace FieldsRead

variable {α γ : Type} {readers : SlotReaders α γ} {make : γ} {fields : List Field} {a : α} {room : Nat}
  {slot : String → Json.Slot}

theorem admits (h : FieldsRead readers make fields a) :
    ∀ field ∈ fields, field.shape.Admits field.shape.toJson := by
  induction h with
  | nil => simp
  | cons hfield _ ih => exact List.forall_mem_cons.mpr ⟨hfield.admits, ih⟩

theorem run_eq_some (h : FieldsRead readers make fields a)
    (hfits : ∀ field ∈ fields, (slot field.name).Fits field room) :
    readers.run make room (fields.map fun field => slot field.name) = some a := by
  induction h with
  | nil => rfl
  | cons hfield _ ih =>
    rw [List.forall_mem_cons] at hfits
    rw [List.map_cons, SlotReaders.run, hfield.read_eq_some room _ hfits.1, Option.bind_some,
      ih hfits.2]

/-- One slot that is refused refuses them all, whatever is made of the others. -/
theorem run_eq_none (h : FieldsRead readers make fields a) (make' : γ) {spoilt : Field}
    (hmem : spoilt ∈ fields) (hspoils : (slot spoilt.name).Spoils spoilt) :
    readers.run make' room (fields.map fun field => slot field.name) = none := by
  induction h with
  | nil => cases hmem
  | cons hfield _ ih =>
    rw [List.map_cons, SlotReaders.run]
    rcases List.mem_cons.mp hmem with rfl | hmem
    · rw [hfield.read_eq_none room _ hspoils, Option.bind_none]
    · exact Option.bind_eq_none_iff.mpr fun b _ => ih (make' b) hmem

end FieldsRead

namespace RecordReads

variable {α : Type} {read : Nat → Json → Option α} {fields : List Field} {a : α}

/-- A record is read by the readers of its fields. -/
theorem of_fields {γ : Type} {readers : SlotReaders α γ} (make : γ)
    (h : FieldsRead readers make fields a) (names : List String) (hnames : fields.map Field.name = names)
    (hnodup : names.Nodup)
    (hread : ∀ room json slot, json.slots? names = some (names.map slot) →
      read room json = readers.run make room (names.map slot)) :
    RecordReads read fields a where
  nodup := hnames ▸ hnodup
  admits := h.admits
  read_eq_some room given hfilled hgiven := by
    subst hnames
    rw [hread room _ (slotOf given) (slots?_eq_some ?_), List.map_map]
    · exact h.run_eq_some fun field hfield => (hfilled field hfield).fits hgiven
    · exact List.forall_mem_map.mpr fun field hfield => (hfilled field hfield).length_held_le
  read_eq_none room given hspoilt := by
    subst hnames
    -- the record still has a slot for each name, but one of them is refused
    rw [hread room _ (slotOf given) (slots?_eq_some ?_), List.map_map]
    · obtain ⟨spoilt, hmem, hspoilt, -⟩ := hspoilt
      exact h.run_eq_none make hmem hspoilt.spoils
    · exact List.forall_mem_map.mpr fun field hfield => hspoilt.length_held_le hfield

theorem map {β : Type} (h : RecordReads read fields a) (f : α → β) :
    RecordReads (fun room json => (read room json).map f) fields (f a) where
  nodup := h.nodup
  admits := h.admits
  read_eq_some room given hfilled hgiven := by
    rw [h.read_eq_some room given hfilled hgiven, Option.map_some]
  read_eq_none room given hspoilt := by
    rw [h.read_eq_none room given hspoilt, Option.map_none]

/-- A record alone. Reading it takes one of the room. -/
theorem reads (hzero : ∀ json, read 0 json = none)
    (h : RecordReads (fun room => read (room + 1)) fields a) : Reads read (.record fields) a where
  admits := Shape.admits_record_toJson h.nodup h.admits
  read_eq_some room json hadmits hdepth hreadable := by
    obtain ⟨given, rfl, -, hfilled⟩ := Shape.admits_record_iff.mp hadmits
    obtain ⟨inner, rfl, hinner⟩ := Json.exists_room_of_object hdepth
    rw [Json.isReadable_object] at hreadable
    exact h.read_eq_some inner given hfilled fun held hheld => ⟨hinner held hheld, hreadable held hheld⟩
  read_eq_none room json json' hadmits hedit := by
    obtain ⟨given, rfl, hspoilt⟩ := Shape.exists_spoiltIn_of_harmful hadmits hedit
    cases room with
    | zero => exact hzero _
    | succ inner => exact h.read_eq_none inner given hspoilt

end RecordReads

/-! ## Variants -/

section Variants

variable {key name other : String} {given : List (String × Json)} {field : Field} {fields : List Field}

/-- The fields of a variant without its tag. -/
def untagged (key : String) (given : List (String × Json)) : List (String × Json) :=
  given.filter fun field => field.1 != key

theorem mem_of_mem_untagged {held : String × Json} (h : held ∈ untagged key given) : held ∈ given :=
  List.mem_of_mem_filter h

theorem held_untagged (hne : other ≠ key) : held other (untagged key given) = held other given := by
  rw [held, held, untagged, List.filter_filter]
  refine congrArg _ (List.filter_congr fun field _ => ?_)
  by_cases hname : field.1 = other
  · simp [hname, hne]
  · simp [hname]

theorem Field.filled_untagged_iff (hne : field.name ≠ key) :
    field.Filled (untagged key given) ↔ field.Filled given :=
  filled_iff_of_held_eq (held_untagged hne)

theorem Field.spoiltIn_untagged (hkey : key ∉ fields.map Field.name) {spoilt : Field}
    (hmem : spoilt ∈ fields) (hspoilt : spoilt.Spoilt given)
    (hothers : ∀ field ∈ fields, field.name ≠ spoilt.name → field.Filled given) :
    SpoiltIn fields (untagged key given) := by
  have hne : ∀ field ∈ fields, field.name ≠ key := by
    rintro field hfield rfl
    exact hkey (List.mem_map_of_mem hfield)
  refine ⟨spoilt, hmem, ?_, fun field hfield hname => ?_⟩
  · rwa [Spoilt, held_untagged (hne spoilt hmem)]
  · exact (filled_untagged_iff (hne field hfield)).mpr (hothers field hfield hname)

theorem splitTag?_of_held_eq_nil (h : held key given = []) :
    (Json.object given).splitTag? key = none := by
  rw [held, List.map_eq_nil_iff] at h
  simp [Json.splitTag?, h]

theorem splitTag?_of_held_eq_singleton {tag : Json} (h : held key given = [tag]) :
    (Json.object given).splitTag? key = some (tag, .object (untagged key given)) := by
  obtain ⟨⟨first, value⟩, heq, rfl⟩ := List.map_eq_singleton_iff.mp h
  simp [Json.splitTag?, heq, untagged]

variable {α : Type} {choices : List (String × (Json → Option α))} {enclosed : Bool} {room : Nat}

theorem variant?_of_held_eq_nil (h : held key given = []) :
    (Json.object given).variant? enclosed room key choices = none := by
  rw [Json.variant?, splitTag?_of_held_eq_nil h, Option.bind_none, ite_self]

theorem variant?_of_held_eq_tag {read : Json → Option α} (h : held key given = [.string name])
    (hchoice : choices.lookup name = some read) :
    (Json.object given).variant? enclosed room key choices =
      if enclosed || ((Json.object given).depth ≤ room && (Json.object given).isReadable) then
        read (.object (untagged key given))
      else none := by
  rw [Json.variant?, splitTag?_of_held_eq_singleton h, Option.bind_some]
  show (if _ then (choices.lookup name).bind fun read => read (.object (untagged key given)) else none) = _
  rw [hchoice, Option.bind_some]

theorem Field.held_eq_of_filled_tag (h : (required key (.text name)).Filled given) :
    held key given = [.string name] := by
  rcases h with ⟨-, hneed⟩ | ⟨json, hone, rfl⟩
  · cases hneed
  · exact hone

/-- A tag can only be lost: there is nothing inside to lose. -/
theorem Field.held_eq_of_spoilt_tag (h : (required key (.text name)).Spoilt given) :
    held key given = [] := by
  rcases h with ⟨hnone, -⟩ | ⟨_, _, json, -, hedit⟩
  · exact hnone
  · cases hedit

end Variants

/-- A variant, whose tag chooses the reader of its other fields. -/
theorem variant_reads {α : Type} {body read : Nat → Json → Option α} {fields : List Field} {a : α}
    {enclosed : Bool} {key name : String} {choices : Nat → List (String × (Json → Option α))}
    (hzero : ∀ json, read 0 json = none)
    (hread : ∀ room json, read (room + 1) json = json.variant? enclosed (room + 1) key (choices room))
    (hchoice : ∀ room, (choices room).lookup name = some (body room))
    (hkey : key ∉ fields.map Field.name) (h : RecordReads body fields a) :
    Reads read (.tagged key name fields) a where
  admits := Shape.admits_record_toJson (List.nodup_cons.mpr ⟨hkey, h.nodup⟩)
    (List.forall_mem_cons.mpr ⟨rfl, h.admits⟩)
  read_eq_some room json hadmits hdepth hreadable := by
    obtain ⟨given, rfl, -, hfilled⟩ := Shape.admits_record_iff.mp hadmits
    obtain ⟨inner, rfl, hinner⟩ := Json.exists_room_of_object hdepth
    rw [List.forall_mem_cons] at hfilled
    have htag := Field.held_eq_of_filled_tag hfilled.1
    -- the first tag counts all of the variant, which fits
    rw [hread, variant?_of_held_eq_tag htag (hchoice inner), if_pos (by simp [hdepth, hreadable])]
    rw [Json.isReadable_object] at hreadable
    refine h.read_eq_some inner _ (fun field hfield => ?_) fun held hheld => ?_
    · have hne : field.name ≠ key := fun hname => hkey (hname ▸ List.mem_map_of_mem hfield)
      exact (Field.filled_untagged_iff hne).mpr (hfilled.2 field hfield)
    · exact ⟨hinner held (mem_of_mem_untagged hheld), hreadable held (mem_of_mem_untagged hheld)⟩
  read_eq_none room json json' hadmits hedit := by
    obtain ⟨given, rfl, spoilt, hmem, hspoilt, hothers⟩ := Shape.exists_spoiltIn_of_harmful hadmits hedit
    cases room with
    | zero => exact hzero _
    | succ inner =>
      rw [hread]
      rw [List.forall_mem_cons] at hothers
      -- either the tag is gone, or it still chooses the same reader and that one refuses
      rcases List.mem_cons.mp hmem with rfl | hmem
      · exact variant?_of_held_eq_nil (Field.held_eq_of_spoilt_tag hspoilt)
      · have hne : key ≠ spoilt.name := fun hname => hkey (hname ▸ List.mem_map_of_mem hmem)
        have htag := Field.held_eq_of_filled_tag (hothers.1 hne)
        rw [variant?_of_held_eq_tag htag (hchoice inner),
          h.read_eq_none inner _ (Field.spoiltIn_untagged hkey hmem hspoilt hothers.2), ite_self]

/-! ## Fields -/

namespace Reads

variable {α : Type} {read : Nat → Json → Option α} {shape : Shape} {a : α} {name : String}

theorem required (h : Reads read shape a) :
    FieldReads (fun room slot => slot.required (read room)) (.required name shape) a where
  admits := h.admits
  read_eq_some room slot hfits := by
    cases slot with
    | given json => exact h.read_eq_some room json hfits.1 hfits.2.1 hfits.2.2
    | absent => cases hfits
    | ended => exact hfits.elim
  read_eq_none room slot hspoils := by
    cases slot with
    | given json' =>
      obtain ⟨json, hadmits, hedit⟩ := hspoils
      exact h.read_eq_none room json json' hadmits hedit
    | _ => rfl

theorem orElse (h : Reads read shape a) {fallback : α} {isDefault : Bool}
    (hdefault : isDefault = true → a = fallback) :
    FieldReads (fun room slot => slot.orElse fallback (read room)) (.optional name isDefault shape) a where
  admits := h.admits
  read_eq_some room slot hfits := by
    cases slot with
    | given json => exact h.read_eq_some room json hfits.1 hfits.2.1 hfits.2.2
    | absent =>
      obtain rfl := hdefault (Need.optional.inj hfits)
      rfl
    | ended => exact hfits.elim
  read_eq_none room slot hspoils := by
    cases slot with
    | given json' =>
      obtain ⟨json, hadmits, hedit⟩ := hspoils
      exact h.read_eq_none room json json' hadmits hedit
    | absent => cases hspoils
    | ended => exact hspoils.elim

end Reads

theorem Shape.ne_null_of_admits {shape : Shape} {json : Json} (hshape : shape ≠ .leaf .null)
    (h : shape.Admits json) : json ≠ .null := by
  rintro rfl
  cases shape with
  | leaf json =>
    obtain rfl : Json.null = json := h
    exact hshape rfl
  | _ => exact h

theorem Shape.ne_null_of_edit {shape : Shape} {json json' : Json} (h : shape.Edit Harmful json json') :
    json' ≠ .null := by
  cases h <;> exact nofun

/-- A field that may be null, of a value whose own JSON never is. -/
theorem nullableOrElse_reads {α : Type} {read : Nat → Json → Option α} {shape : α → Shape}
    {value : Option α} {name : String} (h : ∀ a ∈ value, Reads read (shape a) a ∧ shape a ≠ .leaf .null) :
    FieldReads (fun room slot => slot.nullableOrElse (read room))
      (.optional name value.isNone (optionShape shape value)) value where
  admits := by
    cases value with
    | none => rfl
    | some a => exact (h a rfl).1.admits
  read_eq_some room slot hfits := by
    cases slot with
    | given json =>
      cases value with
      | none =>
        obtain rfl : json = .null := hfits.1
        rfl
      | some a =>
        have hne := Shape.ne_null_of_admits (h a rfl).2 hfits.1
        have hread := (h a rfl).1.read_eq_some room json hfits.1 hfits.2.1 hfits.2.2
        rw [Json.Slot.nullableOrElse_of_ne _ hne, hread, Option.map_some]
    | absent =>
      obtain rfl := Option.isNone_iff_eq_none.mp (Need.optional.inj hfits)
      rfl
    | ended => exact hfits.elim
  read_eq_none room slot hspoils := by
    cases slot with
    | given json' =>
      obtain ⟨json, hadmits, hedit⟩ := hspoils
      cases value with
      | none => cases hedit
      | some a =>
        rw [Json.Slot.nullableOrElse_of_ne _ (Shape.ne_null_of_edit hedit),
          (h a rfl).1.read_eq_none room json json' hadmits hedit, Option.map_none]
    | absent => cases hspoils
    | ended => exact hspoils.elim

/-! ## Lists and plain values -/

/-- Reads the items of an array. -/
def readItems {α : Type} (read : Nat → Json → Option α) : Nat → Json → Option (List α)
  | room + 1, .array items => items.mapM (read room)
  | _, _ => none

section Lists

variable {α : Type} {read : Nat → Json → Option α} {shape : α → Shape} {items : List α}

theorem itemsAdmit_toJson (h : ∀ a ∈ items, (shape a).Admits (shape a).toJson) :
    Shape.ItemsAdmit (items.map shape) (Shape.itemsToJson (items.map shape)) := by
  induction items with
  | nil => trivial
  | cons a rest ih =>
    rw [List.forall_mem_cons] at h
    exact ⟨h.1, ih h.2⟩

theorem mapM_eq_some_of_itemsAdmit (h : ∀ a ∈ items, Reads read (shape a) a) {room : Nat}
    {others : List Json} (hadmits : Shape.ItemsAdmit (items.map shape) others)
    (hothers : ∀ other ∈ others, other.depth ≤ room ∧ other.isReadable = true) :
    others.mapM (read room) = some items := by
  induction items generalizing others with
  | nil =>
    cases others with
    | nil => rfl
    | cons first rest => exact hadmits.elim
  | cons a items ih =>
    cases others with
    | nil => exact hadmits.elim
    | cons first rest =>
      rw [List.forall_mem_cons] at h hothers
      obtain ⟨hfirst, hrest⟩ := hadmits
      rw [List.mapM_cons, h.1.read_eq_some room first hfirst hothers.1.1 hothers.1.2,
        ih h.2 hrest hothers.2]
      rfl

theorem mapM_eq_none_of_mem {json : Json} {others : List Json} {room : Nat} (hmem : json ∈ others)
    (hread : read room json = none) : others.mapM (read room) = none := by
  induction others with
  | nil => cases hmem
  | cons first rest ih =>
    rw [List.mapM_cons]
    rcases List.mem_cons.mp hmem with rfl | hrest
    · rw [hread]
      rfl
    · rw [ih hrest]
      cases read room first <;> rfl

theorem readItems_reads (h : ∀ a ∈ items, Reads read (shape a) a) :
    Reads (readItems read) (.list (items.map shape)) items where
  admits := itemsAdmit_toJson fun a ha => (h a ha).admits
  read_eq_some room json hadmits hdepth hreadable := by
    obtain ⟨others, rfl, hothers⟩ := Shape.admits_list_iff.mp hadmits
    obtain ⟨inner, rfl, hinner⟩ := Json.exists_room_of_array hdepth
    rw [Json.isReadable_array] at hreadable
    exact mapM_eq_some_of_itemsAdmit h hothers fun other hmem =>
      ⟨hinner other hmem, hreadable other hmem⟩
  read_eq_none room json json' hadmits hedit := by
    obtain ⟨others, rfl, item, hitem, inner, inner', hmem, hadmits, hedit⟩ :=
      Shape.exists_item_of_harmful hadmits hedit
    obtain ⟨a, ha, rfl⟩ := List.mem_map.mp hitem
    cases room with
    | zero => rfl
    | succ room => exact mapM_eq_none_of_mem hmem ((h a ha).read_eq_none room inner inner' hadmits hedit)

end Lists

/-- A value without records in it, read from its own JSON only. -/
theorem leaf_reads {α : Type} {read : Nat → Json → Option α} {json : Json} {a : α}
    (h : ∀ room, read room json = some a) : Reads read (.leaf json) a where
  admits := rfl
  read_eq_some room other hadmits _ _ := by
    obtain rfl : other = json := hadmits
    exact h room
  read_eq_none _ _ _ _ hedit := by cases hedit

end FrontEnd
