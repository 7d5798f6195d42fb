import FrontEnd.Diagnostic.Rendering

/-!
# The lines of a diagnostic

Every part of a diagnostic ends with a line feed, with one exception: a note that is the empty text has no
line, and the word in front of it stays without a line end. So a diagnostic is made of whole lines exactly if
its note is not empty. Then each part starts a line, and their texts start in one column: the word in front
of a note or a help text is as wide as the level word, and a line without such a word has blanks in its place.
-/

namespace FrontEnd

namespace Text

/-! ## Ends of lines -/

/-- Whether what comes behind a text starts a line: nothing is in front of it, or a line feed. -/
def EndsLine (text : String) : Prop := text = "" ∨ ∃ front, text = front ++ "\n"

theorem endsLine_feed (front : String) : EndsLine (front ++ "\n") := .inr ⟨front, rfl⟩

theorem endsLine_iff_getLast? {text : String} :
    EndsLine text ↔ ∀ c ∈ text.toList.getLast?, c = '\n' := by
  constructor
  · rintro (rfl | ⟨front, rfl⟩) c hc
    · cases hc
    · simpa [eq_comm] using hc
  · intro h
    cases hlast : text.toList.getLast? with
    | none =>
      rw [List.getLast?_eq_none_iff, String.toList_eq_nil_iff] at hlast
      exact .inl hlast
    | some c =>
      obtain rfl := h c hlast
      obtain ⟨front, hfront⟩ := List.getLast?_eq_some_iff.mp hlast
      exact .inr ⟨String.ofList front, String.toList_injective (by rw [hfront]; simp)⟩

namespace EndsLine

variable {first second : String}

theorem append (h : EndsLine first) (h' : EndsLine second) : EndsLine (first ++ second) := by
  rcases h' with rfl | ⟨front, rfl⟩
  · rwa [String.append_empty]
  · rw [← String.append_assoc]
    exact endsLine_feed _

theorem of_append (h : EndsLine (first ++ second)) : EndsLine second := by
  rw [endsLine_iff_getLast?] at h ⊢
  intro c hc
  apply h
  rw [String.toList_append, List.getLast?_append, hc]
  rfl

end EndsLine

/-- A text that ends with a blank does not end a line. -/
theorem not_endsLine_blank (front : String) : ¬ EndsLine (front ++ " ") := by
  rw [endsLine_iff_getLast?]
  intro h
  exact absurd (h ' ' (by simp)) (by decide)

/-! ## Lines in a column -/

/-- A text starts with some lines in a column: in front of each line are so many characters, and behind it is
a line feed. -/
def ShowsLines (column : Nat) : List String → String → Prop
  | [], _ => True
  | line :: more, text => ∃ margin rest, text = margin ++ line ++ "\n" ++ rest ∧
      margin.length = column ∧ '\n' ∉ margin.toList ∧ ShowsLines column more rest

theorem length_blanks (count : Nat) : (blanks count).length = count := by
  simp [blanks]

theorem feed_notMem_blanks (count : Nat) : '\n' ∉ (blanks count).toList := by
  simp [blanks]

/-- Lines behind blanks. -/
theorem showsLines_join (column : Nat) (lines : List String) :
    ShowsLines column lines (String.join (lines.map fun line => blanks column ++ line ++ "\n")) := by
  induction lines with
  | nil => trivial
  | cons line more ih =>
    rw [List.map_cons, String.join_cons]
    exact ⟨blanks column, _, rfl, length_blanks column, feed_notMem_blanks column, ih⟩

/-- A text up to its first line feed. -/
def firstLine (text : String) : String := String.ofList (text.toList.takeWhile (· ≠ '\n'))

theorem exists_behind_takeWhile (cs : List Char) :
    ∃ rest, cs ++ ['\n'] = cs.takeWhile (· ≠ '\n') ++ '\n' :: rest := by
  induction cs with
  | nil => exact ⟨[], rfl⟩
  | cons c cs ih =>
    by_cases hc : c = '\n'
    · exact ⟨cs ++ ['\n'], by simp [hc]⟩
    · obtain ⟨rest, hrest⟩ := ih
      exact ⟨rest, by rw [List.takeWhile_cons_of_pos (by simpa using hc), List.cons_append, hrest]; rfl⟩

theorem exists_behind_firstLine (text : String) : ∃ rest, text ++ "\n" = firstLine text ++ "\n" ++ rest := by
  obtain ⟨rest, hrest⟩ := exists_behind_takeWhile text.toList
  refine ⟨String.ofList rest, String.toList_injective ?_⟩
  simpa [firstLine] using hrest

end Text

open Text

namespace Diagnostic

variable (d : Diagnostic)

/-- The column in which the texts of the parts of a diagnostic start. -/
def column : Nat := d.width + 2

/-- The word in front of a part, as wide as the level word, with a colon. -/
def label (word : String) : String := padLeft d.width word ++ ": "

/-- A diagnostic without colours is made of whole lines: each part starts a line, and the texts of the
location, the note and the help start in one column. -/
structure InLines : Prop where
  whole : ∃ front, d.render false = front ++ "\n"
  message : ∃ rest, d.render false = d.level.word ++ ": " ++ d.message ++ "\n" ++ rest
  location : ∀ l ∈ d.location, EndsLine (d.renderMessage false) ∧
    ShowsLines d.column (linesOf (l.render false d.level)) (d.renderLocation false)
  note : ∀ note ∈ d.note, EndsLine (d.renderMessage false ++ d.renderLocation false) ∧
    (∃ rest, d.renderNote false = d.label "Note" ++ rest) ∧
    ShowsLines d.column (linesOf note) (d.renderNote false)
  /-- The help is written as it is, so only its first line stands in the column. -/
  help : ∀ help ∈ d.help, EndsLine (d.renderMessage false ++ d.renderLocation false ++ d.renderNote false) ∧
    (∃ rest, d.renderHelp false = d.label "Help" ++ rest) ∧
    ShowsLines d.column [firstLine help] (d.renderHelp false)

variable {d}

/-- The word in front of a part reaches up to the column. -/
theorem length_label {word : String} (h : word.length ≤ 5) : (d.label word).length = d.column := by
  have hwidth : 5 ≤ d.width := by
    unfold width
    cases d.level <;> decide
  simp only [label, padLeft, column, String.length_append, length_blanks]
  have hcolon : ": ".length = 2 := rfl
  omega

theorem feed_notMem_label {word : String} (h : '\n' ∉ word.toList) : '\n' ∉ (d.label word).toList := by
  have hcolon : '\n' ∉ ": ".toList := by decide
  simp only [label, padLeft, String.toList_append, List.mem_append, not_or]
  exact ⟨⟨feed_notMem_blanks _, h⟩, hcolon⟩

theorem endsLine_renderMessage : EndsLine (d.renderMessage false) := endsLine_feed _

theorem endsLine_renderLocation : EndsLine (d.renderLocation false) := by
  unfold renderLocation
  split
  · exact .inl rfl
  · refine join_of_append (.inl rfl) .append ?_
    rw [List.forall_mem_map]
    exact fun line _ => endsLine_feed _

theorem renderNote_of_some {note : String} (h : d.note = some note) :
    d.renderNote false = d.label "Note" ++ match linesOf note with
      | [] => ""
      | line :: more =>
        line ++ "\n" ++ String.join (more.map fun line => blanks d.column ++ line ++ "\n") := by
  unfold renderNote
  rw [h]
  rfl

theorem renderHelp_of_some {help : String} (h : d.help = some help) :
    d.renderHelp false = d.label "Help" ++ (help ++ "\n") := by
  unfold renderHelp
  rw [h, ← String.append_assoc]
  rfl

/-- The note ends a line exactly if it is not the empty text. -/
theorem endsLine_renderNote_iff : EndsLine (d.renderNote false) ↔ d.note ≠ some "" := by
  cases hnote : d.note with
  | none =>
    have hempty : d.renderNote false = "" := by
      unfold renderNote
      rw [hnote]
    exact iff_of_true (.inl hempty) (by simp)
  | some note =>
    rw [renderNote_of_some hnote]
    cases hlines : linesOf note with
    | nil =>
      obtain rfl := linesOf_eq_nil_iff.mp hlines
      refine iff_of_false ?_ (by simp)
      have hblank : d.label "Note" ++ "" = padLeft d.width "Note" ++ ":" ++ " " := by
        rw [String.append_empty, label, String.append_assoc]
        rfl
      rw [hblank]
      exact not_endsLine_blank _
    | cons line more =>
      refine iff_of_true ?_ ?_
      · rw [← String.append_assoc, ← String.append_assoc]
        refine (endsLine_feed _).append (join_of_append (.inl rfl) .append ?_)
        rw [List.forall_mem_map]
        exact fun line _ => endsLine_feed _
      · rintro ⟨⟩
        cases hlines

theorem endsLine_renderHelp : EndsLine (d.renderHelp false) := by
  unfold renderHelp
  split
  · exact .inl rfl
  · exact endsLine_feed _

theorem showsLines_renderLocation {l : Location} (h : d.location = some l) :
    ShowsLines d.column (linesOf (l.render false d.level)) (d.renderLocation false) := by
  unfold renderLocation
  rw [h]
  exact showsLines_join d.column _

theorem showsLines_renderNote {note : String} (h : d.note = some note) :
    ShowsLines d.column (linesOf note) (d.renderNote false) := by
  rw [renderNote_of_some h]
  cases linesOf note with
  | nil => trivial
  | cons line more =>
    refine ⟨d.label "Note", _, ?_, length_label (by decide), feed_notMem_label (by decide),
      showsLines_join d.column more⟩
    simp only [String.append_assoc]

theorem showsLines_renderHelp {help : String} (h : d.help = some help) :
    ShowsLines d.column [firstLine help] (d.renderHelp false) := by
  obtain ⟨rest, hrest⟩ := exists_behind_firstLine help
  rw [renderHelp_of_some h, hrest]
  refine ⟨d.label "Help", rest, ?_, length_label (by decide), feed_notMem_label (by decide), trivial⟩
  simp only [String.append_assoc]

/-- **A diagnostic is made of whole lines**, with its parts in one column, exactly if its note is not the empty
text. -/
theorem inLines_iff_note_ne_empty (d : Diagnostic) : d.InLines ↔ d.note ≠ some "" := by
  rw [← endsLine_renderNote_iff]
  have hfront : EndsLine (d.renderMessage false ++ d.renderLocation false) :=
    endsLine_renderMessage.append endsLine_renderLocation
  constructor
  · intro h
    -- The part behind the note starts a line, or else nothing is behind it and the text ends with it.
    cases hhelp : d.help with
    | some help => exact (h.help help hhelp).1.of_append
    | none =>
      have hend : d.render false
          = d.renderMessage false ++ d.renderLocation false ++ d.renderNote false := by
        rw [render, renderHelp, hhelp, String.append_empty]
      have hwhole : EndsLine (d.render false) := .inr h.whole
      rw [hend] at hwhole
      exact hwhole.of_append
  · intro hnote
    have hbehind := hfront.append hnote
    have hmessage : d.render false = d.level.word ++ ": " ++ d.message ++ "\n"
        ++ (d.renderLocation false ++ d.renderNote false ++ d.renderHelp false) := by
      simp only [render, renderMessage, Style.paint_false, String.append_assoc]
    exact {
      whole := (hbehind.append endsLine_renderHelp).resolve_left fun hempty => by
        have hnone := hmessage.symm.trans hempty
        simp at hnone
      message := ⟨_, hmessage⟩
      location := fun l hl => ⟨endsLine_renderMessage, showsLines_renderLocation hl⟩
      note := fun note hn => ⟨hfront, ⟨_, renderNote_of_some hn⟩, showsLines_renderNote hn⟩
      help := fun help hh => ⟨hbehind, ⟨_, renderHelp_of_some hh⟩, showsLines_renderHelp hh⟩ }

/-- Behind an empty note the text does not end with a line feed, and a help text does not start a line. -/
theorem not_inLines_empty_note :
    ((error "broken").withNote "").render false = "Error: broken\n Note: " ∧
      ¬ ((error "broken").withNote "").InLines ∧
      (((error "broken").withNote "").withHelp "mend it").render false
        = "Error: broken\n Note:  Help: mend it\n" ∧
      ¬ (((error "broken").withNote "").withHelp "mend it").InLines := by
  have hrender : ((error "broken").withNote "").render false = "Error: broken\n Note:" ++ " " := by decide
  have hnote : (((error "broken").withNote "").withHelp "mend it").renderNote false = " Note:" ++ " " := by
    decide
  refine ⟨hrender, fun h => ?_, by decide, fun h => ?_⟩
  · have hwhole : EndsLine (((error "broken").withNote "").render false) := .inr h.whole
    rw [hrender] at hwhole
    exact not_endsLine_blank _ hwhole
  · have hbefore := (h.help "mend it" rfl).1.of_append
    rw [hnote] at hbefore
    exact not_endsLine_blank _ hbefore

end Diagnostic

end FrontEnd
