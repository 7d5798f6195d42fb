import FrontEnd.Json.Record

/-! # What is written is read back

A type reads back what it writes if its reader takes whatever its writer made and gives the value again,
however the value is nested and however deep it is, as long as the room is enough for it. Two facts travel
with this because the types around need them: what is written can be read whole, which is what the first
tag asks, and it is never null, so that an option of it is told from a missing one.

Lists and options lift the law. For a record it comes down to its fields, by `slots?_object`; for a
variant to the record behind its tag, by `variant?_tagged`. What a type with the law keeps is `RoundTrips`.
-/

namespace FrontEnd

namespace Json

/-! ## Depth and readability of a written value -/

theorem depthOfFields_le_iff {fields : List (String × Json)} {n : Nat} :
    depthOfFields fields ≤ n ↔ ∀ field ∈ fields, field.2.depth ≤ n := by
  induction fields with
  | nil => simp [depthOfFields]
  | cons field rest ih => rw [depthOfFields, Nat.max_le, ih, List.forall_mem_cons]

theorem depthOfItems_le_iff {items : List Json} {n : Nat} :
    depthOfItems items ≤ n ↔ ∀ item ∈ items, item.depth ≤ n := by
  induction items with
  | nil => simp [depthOfItems]
  | cons item rest ih => rw [depthOfItems, Nat.max_le, ih, List.forall_mem_cons]

theorem depth_array_le_succ_iff {items : List Json} {n : Nat} :
    (array items).depth ≤ n + 1 ↔ ∀ item ∈ items, item.depth ≤ n := by
  rw [depth, Nat.add_le_add_iff_right, depthOfItems_le_iff]

/-- Where an object has room, each of its fields has room too, one less. -/
theorem exists_room_of_object {fields : List (String × Json)} {room : Nat}
    (h : (object fields).depth ≤ room) :
    ∃ inner, room = inner + 1 ∧ ∀ field ∈ fields, field.2.depth ≤ inner := by
  cases room with
  | zero => simp [depth] at h
  | succ inner =>
    rw [depth, Nat.add_le_add_iff_right, depthOfFields_le_iff] at h
    exact ⟨inner, rfl, h⟩

theorem exists_room_of_array {items : List Json} {room : Nat} (h : (array items).depth ≤ room) :
    ∃ inner, room = inner + 1 ∧ ∀ item ∈ items, item.depth ≤ inner := by
  cases room with
  | zero => simp [depth] at h
  | succ inner => exact ⟨inner, rfl, depth_array_le_succ_iff.mp h⟩

theorem isReadable_object {fields : List (String × Json)} :
    (object fields).isReadable = true ↔ ∀ field ∈ fields, field.2.isReadable = true := by
  rw [isReadable]
  induction fields with
  | nil => simp [fieldsReadable]
  | cons field rest ih => simp [fieldsReadable, ih]

theorem isReadable_array {items : List Json} :
    (array items).isReadable = true ↔ ∀ item ∈ items, item.isReadable = true := by
  rw [isReadable]
  induction items with
  | nil => simp [itemsReadable]
  | cons item rest ih => simp [itemsReadable, ih]

/-! ## Records -/

theorem lookup_of_mem {β : Type} {fields : List (String × β)} (hnodup : (fields.map Prod.fst).Nodup)
    {name : String} {value : β} (hmem : (name, value) ∈ fields) :
    fields.lookup name = some value := by
  induction fields with
  | nil => simp at hmem
  | cons field rest ih =>
    obtain ⟨first, held⟩ := field
    rw [List.map_cons, List.nodup_cons] at hnodup
    rcases List.mem_cons.mp hmem with heq | hrest
    · obtain ⟨rfl, rfl⟩ := Prod.mk.inj heq
      simp
    · have hne : name ≠ first := by
        rintro rfl
        exact hnodup.1 (List.mem_map.mpr ⟨_, hrest, rfl⟩)
      rw [List.lookup_cons, beq_false_of_ne hne]
      exact ih hnodup.2 hrest

/-- A keyed record that has just its own fields, each once, gives all of them. -/
theorem slots?_object {names : List String} {fields : List (String × Json)}
    (hnames : fields.map Prod.fst = names) (hnodup : names.Nodup) :
    (object fields).slots? names = some (fields.map fun field => .given field.2) := by
  subst hnames
  have honce : ((fields.map Prod.fst).all fun name =>
      (fields.filter fun field => field.1 == name).length ≤ 1) = true := by
    rw [List.all_eq_true]
    intro name _
    have hcount := List.nodup_iff_count.mp hnodup name
    rw [List.count_eq_countP, List.countP_map, List.countP_eq_length_filter] at hcount
    simpa [Function.comp_def] using hcount
  rw [slots?, if_pos honce, List.map_map]
  refine congrArg some (List.map_congr_left fun field hfield => ?_)
  rw [Function.comp_apply, lookup_of_mem hnodup hfield, Option.elim_some]

namespace Slot

variable {α : Type}

@[simp] theorem required_given (read : Json → Option α) (value : Json) :
    (given value).required read = read value := rfl

@[simp] theorem orElse_given (fallback : α) (read : Json → Option α) (value : Json) :
    (given value).orElse fallback read = read value := rfl

theorem nullableOrElse_of_ne (read : Json → Option α) {value : Json} (h : value ≠ .null) :
    (given value).nullableOrElse read = (read value).map some := by
  cases value with
  | null => exact absurd rfl h
  | _ => rfl

end Slot

/-! ## Variants -/

theorem exists_room_of_tagged {key name : String} {fields : List (String × Json)} {room : Nat}
    (h : (tagged key name fields).depth ≤ room) :
    ∃ inner, room = inner + 1 ∧ ∀ field ∈ fields, field.2.depth ≤ inner := by
  obtain ⟨inner, rfl, hinner⟩ := exists_room_of_object h
  exact ⟨inner, rfl, fun field hfield => hinner field (List.mem_cons_of_mem _ hfield)⟩

theorem isReadable_tagged {key name : String} {fields : List (String × Json)} :
    (tagged key name fields).isReadable = true ↔ ∀ field ∈ fields, field.2.isReadable = true := by
  rw [tagged, isReadable_object, List.forall_mem_cons]
  exact and_iff_right rfl

theorem exists_choice_of_choose? {β : Type} {enclosed : Bool} {choices : List (String × β)}
    {tag : Json} {choice : β} (h : choose? enclosed choices tag = some choice) :
    ∃ name, (name, choice) ∈ choices := by
  cases tag with
  | string name =>
    obtain ⟨before, after, heq, -⟩ := List.lookup_eq_some_iff.mp h
    exact ⟨name, heq ▸ List.mem_append_right before List.mem_cons_self⟩
  | number n =>
    simp only [choose?] at h
    split at h
    · obtain ⟨i, -, h⟩ := Option.bind_eq_some_iff.mp h
      obtain ⟨⟨name, choice'⟩, hget, rfl⟩ := Option.map_eq_some_iff.mp h
      exact ⟨name, List.mem_of_getElem? hget⟩
    · cases h
  | _ => cases h

/-- What is read as a variant is read by one of its choices. -/
theorem exists_choice_of_variant? {α : Type} {choices : List (String × (Json → Option α))}
    {enclosed : Bool} {room : Nat} {key : String} {json : Json} {a : α}
    (h : json.variant? enclosed room key choices = some a) :
    ∃ name read rest, (name, read) ∈ choices ∧ read rest = some a := by
  rw [variant?] at h
  split at h
  · obtain ⟨⟨tag, rest⟩, -, h⟩ := Option.bind_eq_some_iff.mp h
    obtain ⟨read, hread, h⟩ := Option.bind_eq_some_iff.mp h
    obtain ⟨name, hmem⟩ := exists_choice_of_choose? hread
    exact ⟨name, read, rest, hmem, h⟩
  · cases h

/-- A written variant is read by the reader of its tag. -/
theorem variant?_tagged {α : Type} {choices : List (String × (Json → Option α))} {enclosed : Bool}
    {room : Nat} {key name : String} {fields : List (String × Json)} {read : Json → Option α}
    (hkey : key ∉ fields.map Prod.fst) (hdepth : (tagged key name fields).depth ≤ room)
    (hreadable : (tagged key name fields).isReadable = true) (hchoice : choices.lookup name = some read) :
    (tagged key name fields).variant? enclosed room key choices = read (.object fields) := by
  have hnot : ∀ field ∈ fields, (field.1 == key) = false := by
    intro field hfield
    refine beq_false_of_ne ?_
    rintro rfl
    exact hkey (List.mem_map_of_mem hfield)
  have hnone : fields.filter (fun field => field.1 == key) = [] :=
    List.filter_eq_nil_iff.mpr fun field hfield => by simp [hnot field hfield]
  have hall : fields.filter (fun field => field.1 != key) = fields :=
    List.filter_eq_self.mpr fun field hfield => by simp [bne, hnot field hfield]
  have hsplit : (tagged key name fields).splitTag? key = some (.string name, .object fields) := by
    simp [tagged, splitTag?, hnone, hall]
  rw [variant?, if_pos (by simp [hdepth, hreadable]), hsplit, Option.bind_some]
  show ((choices.lookup name).bind fun read => read (.object fields)) = read (.object fields)
  rw [hchoice, Option.bind_some]

end Json

/-! ## The law -/

/-- **Reading what was written.** The values that are read at all are those that `captured` holds of. -/
structure ReadsBack (α : Type) [Interchange α] (captured : α → Prop) : Prop where
  decode_encode : ∀ a, captured a → ∀ enclosed room, (encode a).depth ≤ room →
    decode enclosed room (encode a) = some a
  captured_of_decode : ∀ enclosed room json a, decode enclosed room json = some a → captured a
  isReadable_encode : ∀ a : α, (encode a).isReadable = true
  encode_ne_null : ∀ a : α, encode a ≠ .null

theorem String.readsBack : ReadsBack String fun _ => True where
  decode_encode _ _ _ _ _ := rfl
  captured_of_decode _ _ _ _ _ := trivial
  isReadable_encode _ := rfl
  encode_ne_null _ := nofun

namespace ReadsBack

variable {α : Type} [Interchange α] {captured : α → Prop}

/-- A list of items reads back where its items do. -/
theorem mapM_decode_encode (law : ReadsBack α captured) {items : List α}
    (hcaptured : ∀ a ∈ items, captured a) {enclosed : Bool} {room : Nat}
    (hroom : ∀ a ∈ items, (encode a).depth ≤ room) :
    (items.map encode).mapM (decode enclosed room) = some items := by
  induction items with
  | nil => rfl
  | cons a rest ih =>
    rw [List.forall_mem_cons] at hcaptured hroom
    rw [List.map_cons, List.mapM_cons, law.decode_encode a hcaptured.1 enclosed room hroom.1,
      ih hcaptured.2 hroom.2]
    rfl

theorem forall_captured_of_mapM (law : ReadsBack α captured) {enclosed : Bool} {room : Nat}
    {json : List Json} {items : List α} (h : json.mapM (decode enclosed room) = some items) :
    ∀ a ∈ items, captured a := by
  induction json generalizing items with
  | nil =>
    obtain rfl : items = [] := by simpa using h.symm
    simp
  | cons first rest ih =>
    rw [List.mapM_cons] at h
    obtain ⟨a, ha, h⟩ := Option.bind_eq_some_iff.mp h
    obtain ⟨others, hothers, h⟩ := Option.bind_eq_some_iff.mp h
    obtain rfl : a :: others = items := Option.some.inj h
    rw [List.forall_mem_cons]
    exact ⟨law.captured_of_decode enclosed room first a ha, ih hothers⟩

theorem captured_of_required (law : ReadsBack α captured) {enclosed : Bool} {room : Nat}
    {slot : Json.Slot} {a : α} (h : slot.required (decode enclosed room) = some a) : captured a := by
  cases slot with
  | given json => exact law.captured_of_decode enclosed room json a h
  | _ => cases h

theorem captured_of_orElse (law : ReadsBack α captured) {enclosed : Bool} {room : Nat}
    {slot : Json.Slot} {fallback a : α} (hfallback : captured fallback)
    (h : slot.orElse fallback (decode enclosed room) = some a) : captured a := by
  cases slot with
  | given json => exact law.captured_of_decode enclosed room json a h
  | _ => exact Option.some.inj h ▸ hfallback

theorem list (law : ReadsBack α captured) :
    ReadsBack (List α) fun items => ∀ a ∈ items, captured a where
  decode_encode items hcaptured enclosed room hroom := by
    obtain ⟨inner, rfl, hinner⟩ := Json.exists_room_of_array hroom
    exact law.mapM_decode_encode hcaptured (by simpa using hinner)
  captured_of_decode enclosed room json items h := by
    cases room with
    | zero => cases h
    | succ room =>
      cases json with
      | array json => exact law.forall_captured_of_mapM h
      | _ => cases h
  isReadable_encode items := by
    refine Json.isReadable_array.mpr ?_
    simpa using fun a _ => law.isReadable_encode a
  encode_ne_null _ := nofun

theorem isReadable_encodeOption (law : ReadsBack α captured) (value : Option α) :
    (encodeOption value).isReadable = true := by
  cases value with
  | none => rfl
  | some a => exact law.isReadable_encode a

/-- A field that may be null or left out is written, and read back. -/
theorem nullableOrElse_encodeOption (law : ReadsBack α captured) {value : Option α}
    (hcaptured : ∀ a ∈ value, captured a) {enclosed : Bool} {room : Nat}
    (hroom : (encodeOption value).depth ≤ room) :
    (Json.Slot.given (encodeOption value)).nullableOrElse (decode enclosed room) = some value := by
  cases value with
  | none => rfl
  | some a =>
    have hread := law.decode_encode a (hcaptured a rfl) enclosed room hroom
    rw [encodeOption, Json.Slot.nullableOrElse_of_ne _ (law.encode_ne_null a), hread, Option.map_some]

end ReadsBack

/-! ## Round trips -/

/-- What is written for the value that is read. -/
def rewritten? (α : Type) [Interchange α] (enclosed : Bool) (room : Nat) (json : Json) : Option Json :=
  (decode enclosed room json : Option α).map encode

/-- What the format keeps of the values of a type. Only values that `captured` holds of are claimed to
come back, and nothing else is ever read. -/
structure RoundTrips (α : Type) [Interchange α] (captured : α → Prop) : Prop where
  /-- Reading succeeds on what a value is written as, and gives the value again. -/
  decode_encode : ∀ a, captured a → ∀ enclosed room, (encode a).depth ≤ room →
    decode enclosed room (encode a) = some a
  captured_of_decode : ∀ enclosed room json a, decode enclosed room json = some a → captured a
  /-- What is written for a value that was read stays the same when it is read and written again. -/
  rewritten_fixed : ∀ enclosed room json written, rewritten? α enclosed room json = some written →
    ∀ enclosed' room', written.depth ≤ room' → rewritten? α enclosed' room' written = some written

theorem ReadsBack.roundTrips {α : Type} [Interchange α] {captured : α → Prop}
    (law : ReadsBack α captured) : RoundTrips α captured where
  decode_encode := law.decode_encode
  captured_of_decode := law.captured_of_decode
  rewritten_fixed enclosed room json written h enclosed' room' hroom := by
    obtain ⟨a, ha, rfl⟩ := Option.map_eq_some_iff.mp h
    have hcaptured := law.captured_of_decode enclosed room json a ha
    rw [rewritten?, law.decode_encode a hcaptured enclosed' room' hroom, Option.map_some]

end FrontEnd
