import FrontEnd.Lowering.Declaration
import Mathlib.Data.List.Basic

/-!
# Types as text

Two types have different texts as long as no name in them holds a bracket or a comma. In `Map[Text, List[Int]]`
the end of a name shows by the character behind it, and the end of a generic parameter by a comma or a closing
bracket that belongs to no name. So the text of a type can be told from whatever goes on behind it
(`spelled_append_inj`), which is what the induction needs.
-/

namespace FrontEnd

namespace TypeRef

/-! ## Names -/

mutual

/-- The names in a type, each before those of its generic parameters. -/
def names : TypeRef → List String
  | .mk name generics => name :: namesOfAll generics

/-- The names in the types of a list. -/
def namesOfAll : List TypeRef → List String
  | [] => []
  | t :: ts => t.names ++ namesOfAll ts

end

/-- A character that does not stand between the names in the text of a type. -/
def NameChar (c : Char) : Prop := c ≠ '[' ∧ c ≠ ']' ∧ c ≠ ','

instance : DecidablePred NameChar := fun _ => inferInstanceAs (Decidable (_ ∧ _ ∧ _))

/-- A name holds no bracket and no comma. -/
def PlainName (name : String) : Prop := ∀ c ∈ name.toList, NameChar c

def PlainNames (names : List String) : Prop := ∀ name ∈ names, PlainName name

/-- No name in a type holds a bracket or a comma, however deep it stands. -/
def Plain (t : TypeRef) : Prop := PlainNames t.names

-- Looks at the characters of the name, where the instance for `∀ c : Char` would look at all characters.
instance : DecidablePred PlainName := fun name => List.decidableBAll NameChar name.toList

instance : DecidablePred PlainNames := List.decidableBAll PlainName

instance (t : TypeRef) : Decidable t.Plain := inferInstanceAs (Decidable (PlainNames _))

theorem plainNames_cons {name : String} {names : List String} :
    PlainNames (name :: names) ↔ PlainName name ∧ PlainNames names :=
  List.forall_mem_cons

theorem plainNames_append {names more : List String} :
    PlainNames (names ++ more) ↔ PlainNames names ∧ PlainNames more :=
  List.forall_mem_append

/-- Where a name ends is told by the first character that is none of a name. -/
theorem name_append_inj {name other r s : List Char} (hname : ∀ c ∈ name, NameChar c)
    (hother : ∀ c ∈ other, NameChar c) (hr : ∀ c ∈ r.head?, ¬ NameChar c)
    (hs : ∀ c ∈ s.head?, ¬ NameChar c) (h : name ++ r = other ++ s) : name = other ∧ r = s := by
  induction name generalizing other with
  | nil =>
    cases other with
    | nil => exact ⟨rfl, h⟩
    | cons c other =>
      rw [List.nil_append] at h
      exact absurd (hother c List.mem_cons_self) (hr c (by simp [h]))
  | cons c name ih =>
    cases other with
    | nil =>
      rw [List.nil_append] at h
      exact absurd (hname c List.mem_cons_self) (hs c (by simp [← h]))
    | cons d other =>
      obtain ⟨rfl, htail⟩ := List.cons.inj h
      rw [List.forall_mem_cons] at hname hother
      obtain ⟨rfl, rfl⟩ := ih hname.2 hother.2 htail
      exact ⟨rfl, rfl⟩

/-! ## Texts -/

mutual

/-- The characters of the text of a type. -/
def spelled : TypeRef → List Char
  | .mk name generics => name.toList ++ spelledGenerics generics

/-- What stands behind the name of a type: nothing, or its generic parameters in brackets. -/
def spelledGenerics : List TypeRef → List Char
  | [] => []
  | t :: ts => '[' :: (t.spelled ++ spelledRest ts)

/-- What stands behind a generic parameter: the others, each behind a comma and a blank, and the bracket. -/
def spelledRest : List TypeRef → List Char
  | [] => [']']
  | t :: ts => ',' :: ' ' :: (t.spelled ++ spelledRest ts)

end

theorem intercalate_map_spelled (t : TypeRef) (ts : List TypeRef) :
    [',', ' '].intercalate ((t :: ts).map spelled) ++ [']'] = t.spelled ++ spelledRest ts := by
  induction ts generalizing t with
  | nil => rw [List.map_singleton, List.intercalate_singleton, spelledRest]
  | cons u us ih =>
    rw [List.map_cons, List.map_cons, List.intercalate_cons_cons, ← List.map_cons, List.append_assoc, ih,
      spelledRest, List.append_assoc]
    rfl

mutual

theorem toList_describe : ∀ t : TypeRef, t.describe.toList = t.spelled
  | .mk name [] => by rw [describe, spelled, spelledGenerics, List.append_nil]
  | .mk name (t :: ts) => by
    rw [describe, spelled, spelledGenerics, ← intercalate_map_spelled, ← map_toList_describeAll (t :: ts)]
    simp

theorem map_toList_describeAll : ∀ ts : List TypeRef, (describeAll ts).map String.toList = ts.map spelled
  | [] => rfl
  | t :: ts => by
    rw [describeAll, List.map_cons, List.map_cons, toList_describe t, map_toList_describeAll ts]

end

/-! ## The end of a text -/

/-- What may stand behind the text of a type: nothing, a closing bracket or a comma. -/
def Closes (r : List Char) : Prop := ∀ c ∈ r.head?, c = ']' ∨ c = ','

theorem closes_nil : Closes [] := by simp [Closes]

theorem closes_spelledRest_append (ts : List TypeRef) (r : List Char) : Closes (spelledRest ts ++ r) := by
  cases ts <;> simp [spelledRest, Closes]

theorem not_nameChar_of_closes {r : List Char} (h : Closes r) : ∀ c ∈ r.head?, ¬ NameChar c := by
  intro c hc
  rcases h c hc with rfl | rfl <;> simp [NameChar]

theorem not_nameChar_head_spelledGenerics (gs : List TypeRef) {r : List Char} (h : Closes r) :
    ∀ c ∈ (spelledGenerics gs ++ r).head?, ¬ NameChar c := by
  cases gs with
  | nil => exact not_nameChar_of_closes h
  | cons t ts => simp [spelledGenerics, NameChar]

mutual

/-- The text of a type tells the type, and where it ends. -/
theorem spelled_append_inj : ∀ (t u : TypeRef) {r s : List Char}, t.Plain → u.Plain →
    Closes r → Closes s → t.spelled ++ r = u.spelled ++ s → t = u ∧ r = s
  | .mk name gs, .mk other hs, r, s, ht, hu, hr, hs', h => by
    rw [Plain, names, plainNames_cons] at ht hu
    rw [spelled, spelled, List.append_assoc, List.append_assoc] at h
    obtain ⟨hname, htail⟩ := name_append_inj ht.1 hu.1 (not_nameChar_head_spelledGenerics gs hr)
      (not_nameChar_head_spelledGenerics hs hs') h
    obtain ⟨rfl, rfl⟩ := spelledGenerics_append_inj gs hs ht.2 hu.2 hr hs' htail
    exact ⟨by rw [String.toList_inj.mp hname], rfl⟩

theorem spelledGenerics_append_inj : ∀ (gs hs : List TypeRef) {r s : List Char},
    PlainNames (namesOfAll gs) → PlainNames (namesOfAll hs) → Closes r → Closes s →
    spelledGenerics gs ++ r = spelledGenerics hs ++ s → gs = hs ∧ r = s
  | [], [], _, _, _, _, _, _, h => ⟨rfl, h⟩
  | [], u :: us, r, s, _, _, hr, _, h => by
    -- Without generic parameters there is no bracket behind the name of a type.
    have hopen : '[' ∈ r.head? := by rw [show r = _ from h]; rfl
    simpa using hr '[' hopen
  | t :: ts, [], r, s, _, _, _, hs, h => by
    have hopen : '[' ∈ s.head? := by rw [show s = _ from h.symm]; rfl
    simpa using hs '[' hopen
  | t :: ts, u :: us, r, s, ht, hu, _, _, h => by
    rw [namesOfAll, plainNames_append] at ht hu
    simp only [spelledGenerics, List.cons_append, List.append_assoc, List.cons.injEq, true_and] at h
    obtain ⟨rfl, htail⟩ := spelled_append_inj t u ht.1 hu.1 (closes_spelledRest_append ts r)
      (closes_spelledRest_append us s) h
    obtain ⟨rfl, rfl⟩ := spelledRest_append_inj ts us ht.2 hu.2 htail
    exact ⟨rfl, rfl⟩

/-- Whatever stands behind it, the bracket at the end tells where the generic parameters end. -/
theorem spelledRest_append_inj : ∀ (ts us : List TypeRef) {r s : List Char},
    PlainNames (namesOfAll ts) → PlainNames (namesOfAll us) →
    spelledRest ts ++ r = spelledRest us ++ s → ts = us ∧ r = s
  | [], [], _, _, _, _, h => ⟨rfl, (List.cons.inj h).2⟩
  | [], u :: us, _, _, _, _, h => by simp [spelledRest] at h
  | t :: ts, [], _, _, _, _, h => by simp [spelledRest] at h
  | t :: ts, u :: us, r, s, ht, hu, h => by
    rw [namesOfAll, plainNames_append] at ht hu
    simp only [spelledRest, List.cons_append, List.append_assoc, List.cons.injEq, true_and] at h
    obtain ⟨rfl, htail⟩ := spelled_append_inj t u ht.1 hu.1 (closes_spelledRest_append ts r)
      (closes_spelledRest_append us s) h
    obtain ⟨rfl, rfl⟩ := spelledRest_append_inj ts us ht.2 hu.2 htail
    exact ⟨rfl, rfl⟩

end

/-- **The text of a type tells the type**, if no name in it holds a bracket or a comma. -/
theorem describe_inj {t u : TypeRef} (ht : t.Plain) (hu : u.Plain) :
    t.describe = u.describe ↔ t = u := by
  constructor
  · intro h
    have hspelled : t.spelled ++ [] = u.spelled ++ [] := by
      rw [← toList_describe, ← toList_describe, h]
    exact (spelled_append_inj t u ht hu closes_nil closes_nil hspelled).1
  · rintro rfl
    rfl

/-- No generic parameters are told from one whose name is empty. -/
theorem describe_inj_empty_name :
    (mk "Map" [mk "Text" [], mk "List" []]).Plain ∧ (mk "Map" [mk "Text" [], mk "List" [mk "" []]]).Plain ∧
      (mk "Map" [mk "Text" [], mk "List" []]).describe
        ≠ (mk "Map" [mk "Text" [], mk "List" [mk "" []]]).describe :=
  ⟨by decide, by decide, mt (describe_inj (by decide) (by decide)).mp (by decide)⟩

/-- A comma in a name is taken for one between two types. -/
example : (mk "Map" [mk "Text, Int" []]).describe = (mk "Map" [mk "Text" [], mk "Int" []]).describe := by
  decide

end TypeRef

end FrontEnd
