import FrontEnd.Diagnostic.Rendering
import Mathlib.Data.List.Forall2

/-!
# Colours change nothing but the style

Without its style sequences, a text in colours is the text without colours, if none of the texts that go into
it has an escape character. A sequence ends where a word begins or ends, so it stays whole however the text
goes on; this is the statement that texts keep when they are put together (`Text.Restyles`). The
location is cut into lines after it has been painted, but its arrow has no line end, so that it stands in
the first line in both texts.
-/

namespace FrontEnd

namespace Text

/-! ## Style sequences -/

/-- What is behind the `m` that ends a style sequence. -/
def styleEnd? : List Char → Option (List Char)
  | [] => none
  | c :: rest => if c = 'm' then some rest else styleEnd? rest

/-- What is behind a style sequence at the start of a text: an escape character, a bracket, and all up to the
next `m`. -/
def behindStyle? : List Char → Option (List Char)
  | '\x1b' :: '[' :: rest => styleEnd? rest
  | _ => none

theorem length_lt_of_styleEnd? {text rest : List Char} (h : styleEnd? text = some rest) :
    rest.length < text.length := by
  induction text with
  | nil => cases h
  | cons c text ih =>
    rw [styleEnd?] at h
    split at h
    · obtain rfl := Option.some.inj h
      exact Nat.lt_succ_self _
    · exact Nat.lt_succ_of_lt (ih h)

theorem length_lt_of_behindStyle? {text rest : List Char} (h : behindStyle? text = some rest) :
    rest.length < text.length := by
  unfold behindStyle? at h
  split at h
  · exact Nat.lt_succ_of_lt (Nat.lt_succ_of_lt (length_lt_of_styleEnd? h))
  · cases h

/-- A text without its style sequences. What begins like a sequence and does not end is none. -/
def unstyled : List Char → List Char
  | [] => []
  | c :: rest =>
    match h : behindStyle? (c :: rest) with
    | some behind =>
      have := length_lt_of_behindStyle? h
      unstyled behind
    | none => c :: unstyled rest
termination_by text => text.length
decreasing_by
  · exact this
  · exact Nat.lt_succ_self _

theorem unstyled_nil : unstyled [] = [] := by rw [unstyled]

/-- The definition as it reads without the proof that it ends. -/
theorem unstyled_cons (c : Char) (rest : List Char) :
    unstyled (c :: rest) = match behindStyle? (c :: rest) with
      | some behind => unstyled behind
      | none => c :: unstyled rest := by
  rw [unstyled]
  split <;> rename_i h <;> simp only [h]

theorem unstyled_cons_of_ne {c : Char} (hc : c ≠ '\x1b') (rest : List Char) :
    unstyled (c :: rest) = c :: unstyled rest := by
  have hnone : behindStyle? (c :: rest) = none := by
    unfold behindStyle?
    split
    · rename_i heq
      exact absurd (List.cons.inj heq).1 hc
    · rfl
  rw [unstyled_cons, hnone]

theorem unstyled_append {text : List Char} (h : '\x1b' ∉ text) (rest : List Char) :
    unstyled (text ++ rest) = text ++ unstyled rest := by
  induction text with
  | nil => rfl
  | cons c text ih =>
    rw [List.mem_cons, not_or] at h
    rw [List.cons_append, unstyled_cons_of_ne (Ne.symm h.1), ih h.2, List.cons_append]

theorem styleEnd?_append {code : List Char} (hcode : 'm' ∉ code) (rest : List Char) :
    styleEnd? (code ++ 'm' :: rest) = some rest := by
  induction code with
  | nil => rfl
  | cons c code ih =>
    rw [List.mem_cons, not_or] at hcode
    rw [List.cons_append, styleEnd?, if_neg (Ne.symm hcode.1), ih hcode.2]

theorem unstyled_sequence {code : List Char} (hcode : 'm' ∉ code) (rest : List Char) :
    unstyled ('\x1b' :: '[' :: (code ++ 'm' :: rest)) = unstyled rest := by
  rw [unstyled_cons, behindStyle?, styleEnd?_append hcode]

/-! ## Texts without escape characters -/

/-- Whether a text has no escape character. -/
def NoEscape (text : String) : Prop := '\x1b' ∉ text.toList

instance (text : String) : Decidable (NoEscape text) := inferInstanceAs (Decidable (¬ _))

namespace NoEscape

theorem append {first second : String} (h : NoEscape first) (h' : NoEscape second) :
    NoEscape (first ++ second) := by
  rw [NoEscape, String.toList_append, List.mem_append, not_or]
  exact ⟨h, h'⟩

theorem blanks (count : Nat) : NoEscape (blanks count) := by
  rw [NoEscape, Text.blanks, String.toList_ofList, List.mem_replicate]
  exact fun h => absurd h.2 (by decide)

theorem padLeft (width : Nat) {text : String} (h : NoEscape text) : NoEscape (padLeft width text) :=
  (blanks _).append h

theorem repr (n : Nat) : NoEscape n.repr := by
  intro h
  rw [Nat.toList_repr] at h
  exact absurd (Nat.isDigit_of_mem_toDigits (by decide) (by decide) h) (by decide)

theorem of_mem_linesOf {text line : String} (h : NoEscape text) (hline : line ∈ linesOf text) :
    NoEscape line := fun hc => h (mem_of_mem_linesOf hline hc).1

end NoEscape

/-- Without its style sequences a text is another one, whatever comes behind it. -/
def Restyles (styled plain : String) : Prop :=
  ∀ rest, unstyled (styled.toList ++ rest) = plain.toList ++ unstyled rest

namespace Restyles

variable {styled plain styled' plain' : String}

theorem unstyled_eq (h : Restyles styled plain) : unstyled styled.toList = plain.toList := by
  simpa [unstyled_nil] using h []

theorem of_noEscape {text : String} (h : NoEscape text) : Restyles text text := unstyled_append h

theorem append (h : Restyles styled plain) (h' : Restyles styled' plain') :
    Restyles (styled ++ styled') (plain ++ plain') := by
  intro rest
  rw [String.toList_append, String.toList_append, List.append_assoc, h, h', List.append_assoc]

theorem append_same (h : Restyles styled plain) {text : String} (htext : NoEscape text) :
    Restyles (styled ++ text) (plain ++ text) := h.append (of_noEscape htext)

theorem join {styleds plains : List String} (h : List.Forall₂ Restyles styleds plains) :
    Restyles (String.join styleds) (String.join plains) := by
  induction h with
  | nil => exact of_noEscape (by simp [NoEscape])
  | cons first _ ih =>
    rw [String.join_cons, String.join_cons]
    exact first.append ih

/-- A painted word. -/
theorem paint (style : Style) {word : String} (h : NoEscape word) :
    Restyles (style.paint true word) (style.paint false word) := by
  intro rest
  have hcode : 'm' ∉ style.code.toList := by cases style <;> decide
  have hpainted : (style.paint true word).toList ++ rest = '\x1b' :: '[' :: (style.code.toList ++ 'm' ::
      (word.toList ++ '\x1b' :: '[' :: (['0'] ++ 'm' :: rest))) := by
    simp [Style.paint]
  rw [hpainted, unstyled_sequence hcode, of_noEscape h, unstyled_sequence (by decide), Style.paint_false]

end Restyles

end Text

open Text

/-! ## Locations -/

namespace Location

variable {l : Location}

theorem noEscape_text (h : NoEscape l.fileName) : NoEscape l.text :=
  (((h.append (by decide)).append (.repr _)).append (by decide)).append (.repr _)

theorem restyles_render (h : NoEscape l.fileName) (level : Level) :
    Restyles (l.render true level) (l.render false level) := by
  rw [render, render]
  have harrow := Restyles.paint level.style (by decide : NoEscape "-->")
  exact ((harrow.append_same (by decide)).append_same (noEscape_text h)).append_same (by decide)

/-- The arrow stands in the first line, and what is in the lines behind it does not depend on colours. -/
theorem exists_linesOf_render (l : Location) (level : Level) :
    ∃ first more, linesOf (" " ++ l.text ++ "\n") = first :: more ∧
      ∀ colored, linesOf (l.render colored level) = (level.style.paint colored "-->" ++ first) :: more := by
  obtain ⟨first, more, hlines⟩ : ∃ first more, linesOf (" " ++ l.text ++ "\n") = first :: more := by
    apply List.exists_cons_of_ne_nil
    rw [Ne, linesOf_eq_nil_iff]
    simp
  refine ⟨first, more, hlines, fun colored => ?_⟩
  have hword : ∀ c ∈ (level.style.paint colored "-->").toList, c ≠ '\n' ∧ c ≠ '\r' := by
    cases level <;> cases colored <;> simp [Style.paint, Style.code, Level.style]
  have hrender : l.render colored level
      = level.style.paint colored "-->" ++ (" " ++ l.text ++ "\n") := by
    simp only [render, String.append_assoc]
  rw [hrender]
  exact linesOf_append hword hlines

end Location

/-! ## Diagnostics -/

namespace Diagnostic

/-- None of the texts of a diagnostic has an escape character. -/
structure NoEscape (d : Diagnostic) : Prop where
  message : Text.NoEscape d.message
  note : ∀ note ∈ d.note, Text.NoEscape note
  help : ∀ help ∈ d.help, Text.NoEscape help
  location : ∀ l ∈ d.location, Text.NoEscape l.fileName

variable {d : Diagnostic}

theorem restyles_renderMessage (h : d.NoEscape) : Restyles (d.renderMessage true) (d.renderMessage false) := by
  rw [renderMessage, renderMessage]
  have hword : Text.NoEscape d.level.word := by cases d.level <;> decide
  have hpainted := Restyles.paint d.level.style hword
  exact ((hpainted.append_same (by decide)).append_same h.message).append_same (by decide)

theorem restyles_renderLocation (h : d.NoEscape) :
    Restyles (d.renderLocation true) (d.renderLocation false) := by
  unfold renderLocation
  split
  · exact .of_noEscape (by decide)
  · rename_i l hl
    obtain ⟨first, more, hlines, hrender⟩ := l.exists_linesOf_render d.level
    have hfile : Text.NoEscape l.fileName := h.location l hl
    have htext : Text.NoEscape (" " ++ l.text ++ "\n") :=
      ((by decide : Text.NoEscape " ").append (Location.noEscape_text hfile)).append (by decide)
    have hmem : ∀ line ∈ first :: more, Text.NoEscape line := by
      intro line hline
      exact htext.of_mem_linesOf (hlines ▸ hline)
    have hrow : ∀ {styled plain : String}, Restyles styled plain →
        Restyles (blanks (d.width + 2) ++ styled ++ "\n") (blanks (d.width + 2) ++ plain ++ "\n") :=
      fun hline => ((Restyles.of_noEscape (.blanks _)).append hline).append_same (by decide)
    rw [List.forall_mem_cons] at hmem
    -- The first line differs by the painted arrow, and the others are the same in both texts.
    rw [hrender, hrender, List.map_cons, List.map_cons]
    refine .join (.cons (hrow ((Restyles.paint _ (by decide)).append_same hmem.1)) ?_)
    rw [List.forall₂_map_left_iff, List.forall₂_map_right_iff, List.forall₂_same]
    exact fun line hline => hrow (.of_noEscape (hmem.2 line hline))

theorem restyles_renderNote (h : d.NoEscape) : Restyles (d.renderNote true) (d.renderNote false) := by
  unfold renderNote
  split
  · exact .of_noEscape (by decide)
  · rename_i note hnote
    have hline : ∀ line ∈ linesOf note, Text.NoEscape line := fun _ => (h.note note hnote).of_mem_linesOf
    refine ((Restyles.paint _ (.padLeft _ (by decide))).append_same (by decide)).append_same ?_
    split
    · decide
    · rename_i line more hlines
      rw [hlines, List.forall_mem_cons] at hline
      refine (hline.1.append (by decide)).append (join_of_append (by decide) .append ?_)
      rw [List.forall_mem_map]
      exact fun line hmore => ((NoEscape.blanks _).append (hline.2 line hmore)).append (by decide)

theorem restyles_renderHelp (h : d.NoEscape) : Restyles (d.renderHelp true) (d.renderHelp false) := by
  unfold renderHelp
  split
  · exact .of_noEscape (by decide)
  · rename_i help hhelp
    have hpainted := Restyles.paint .bold (.padLeft d.width (by decide : Text.NoEscape "Help"))
    exact ((hpainted.append_same (by decide)).append_same (h.help help hhelp)).append_same (by decide)

theorem restyles_render (h : d.NoEscape) : Restyles (d.render true) (d.render false) :=
  (((restyles_renderMessage h).append (restyles_renderLocation h)).append (restyles_renderNote h)).append
    (restyles_renderHelp h)

/-- **Colours change nothing but the style.** A diagnostic in colours, and a location under a diagnostic of any
level, is without its style sequences what it is without colours. -/
theorem unstyled_render (h : d.NoEscape) {l : Location} (hl : Text.NoEscape l.fileName) (level : Level) :
    unstyled (d.render true).toList = (d.render false).toList ∧
      unstyled (l.render true level).toList = (l.render false level).toList :=
  ⟨(restyles_render h).unstyled_eq, (Location.restyles_render hl level).unstyled_eq⟩

/-- A warning with all parts, some of them of two lines. -/
def sample : Diagnostic where
  level := .warning
  message := "unused\nimport"
  note := some "first line\r\nsecond line"
  help := some "remove it"
  location := some (.ofCounts "folder\nmain" 3 0)

theorem unstyled_render_sample :
    sample.NoEscape ∧ Text.NoEscape "main" ∧ sample.render true ≠ sample.render false ∧
      unstyled (sample.render true).toList = (sample.render false).toList ∧
      unstyled ((Location.ofCounts "main" 1 1).render true .error).toList
        = ((Location.ofCounts "main" 1 1).render false .error).toList := by
  have hsample : sample.NoEscape := {
    message := by decide
    note := by rintro _ ⟨⟩; decide
    help := by rintro _ ⟨⟩; decide
    location := by rintro _ ⟨⟩; decide }
  have hfile : Text.NoEscape "main" := by decide
  exact ⟨hsample, hfile, by decide, unstyled_render hsample hfile .error⟩

end Diagnostic

end FrontEnd
