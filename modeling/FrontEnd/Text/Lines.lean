/-! # Lines of a text

A line ends at a line feed, or at a carriage return that a line feed follows. What stands after the
last end is a line too, unless it is empty. A carriage return anywhere else is an ordinary character.
-/

namespace FrontEnd.Text

/-- The lines of a text, without their ends. -/
def lines : List Char → List (List Char)
  | [] => []
  | '\n' :: rest => [] :: lines rest
  | '\r' :: '\n' :: rest => [] :: lines rest
  | c :: rest =>
    match lines rest with
    | [] => [[c]]
    | line :: more => (c :: line) :: more

def linesOf (text : String) : List String :=
  (lines text.toList).map String.ofList

def blanks (count : Nat) : String :=
  String.ofList (List.replicate count ' ')

/-- A text with blanks in front, so that it takes at least `width` characters. -/
def padLeft (width : Nat) (text : String) : String :=
  blanks (width - text.length) ++ text

/-- A text with blanks behind, so that it takes at least `width` characters. -/
def padRight (width : Nat) (text : String) : String :=
  text ++ blanks (width - text.length)

@[simp] theorem lines_nil : lines [] = [] := rfl

@[simp] theorem lines_feed (rest : List Char) : lines ('\n' :: rest) = [] :: lines rest := rfl

theorem lines_cons_of_ne {c : Char} (hfeed : c ≠ '\n') (hreturn : c ≠ '\r') (rest : List Char) :
    lines (c :: rest) = match lines rest with
      | [] => [[c]]
      | line :: more => (c :: line) :: more := by
  rw [lines]
  · exact hfeed
  · rintro - rfl
    exact absurd rfl hreturn

/-- A word without line ends becomes a part of the first line of the text behind it. -/
theorem lines_append {word : List Char} (h : ∀ c ∈ word, c ≠ '\n' ∧ c ≠ '\r') {text line : List Char}
    {more : List (List Char)} (hlines : lines text = line :: more) :
    lines (word ++ text) = (word ++ line) :: more := by
  induction word with
  | nil => exact hlines
  | cons c word ih =>
    obtain ⟨hfeed, hreturn⟩ := h c List.mem_cons_self
    rw [List.cons_append, lines_cons_of_ne hfeed hreturn, ih fun d hd => h d (List.mem_cons_of_mem c hd)]
    rfl

@[simp] theorem lines_eq_nil_iff {text : List Char} : lines text = [] ↔ text = [] := by
  fun_cases lines text <;> simp_all

/-- The characters of a line are characters of the text, and none of them is a line feed. -/
theorem mem_of_mem_lines {text line : List Char} (hline : line ∈ lines text) {c : Char} (hc : c ∈ line) :
    c ∈ text ∧ c ≠ '\n' := by
  fun_induction lines text generalizing line with
  | case1 => cases hline
  | case2 rest ih =>
    rcases List.mem_cons.mp hline with rfl | hline
    · cases hc
    · exact (ih hline hc).imp_left (List.mem_cons_of_mem _)
  | case3 rest ih =>
    rcases List.mem_cons.mp hline with rfl | hline
    · cases hc
    · exact (ih hline hc).imp_left fun h => List.mem_cons_of_mem _ (List.mem_cons_of_mem _ h)
  | case4 d rest hfeed hreturn hnil ih =>
    obtain rfl := List.mem_singleton.mp hline
    obtain rfl := List.mem_singleton.mp hc
    exact ⟨List.mem_cons_self, hfeed⟩
  | case5 d rest hfeed hreturn first more hlines ih =>
    rw [hlines] at ih
    rcases List.mem_cons.mp hline with rfl | hline
    · rcases List.mem_cons.mp hc with rfl | hc
      · exact ⟨List.mem_cons_self, hfeed⟩
      · exact (ih List.mem_cons_self hc).imp_left (List.mem_cons_of_mem _)
    · exact (ih (List.mem_cons_of_mem _ hline) hc).imp_left (List.mem_cons_of_mem _)

theorem linesOf_append {word : String} (h : ∀ c ∈ word.toList, c ≠ '\n' ∧ c ≠ '\r') {text line : String}
    {more : List String} (hlines : linesOf text = line :: more) :
    linesOf (word ++ text) = (word ++ line) :: more := by
  obtain ⟨first, rest, hcons, rfl, rfl⟩ := List.map_eq_cons_iff.mp hlines
  rw [linesOf, String.toList_append, lines_append h hcons, List.map_cons, String.ofList_append,
    String.ofList_toList]

@[simp] theorem linesOf_eq_nil_iff {text : String} : linesOf text = [] ↔ text = "" := by
  rw [linesOf, List.map_eq_nil_iff, lines_eq_nil_iff, String.toList_eq_nil_iff]

theorem mem_of_mem_linesOf {text line : String} (hline : line ∈ linesOf text) {c : Char}
    (hc : c ∈ line.toList) : c ∈ text.toList ∧ c ≠ '\n' := by
  obtain ⟨chars, hchars, rfl⟩ := List.mem_map.mp hline
  rw [String.toList_ofList] at hc
  exact mem_of_mem_lines hchars hc

/-- What texts keep when they are put together, a join of texts keeps. -/
theorem join_of_append {P : String → Prop} (empty : P "")
    (append : ∀ {first second : String}, P first → P second → P (first ++ second)) {texts : List String}
    (h : ∀ text ∈ texts, P text) : P (String.join texts) := by
  induction texts with
  | nil => exact empty
  | cons text texts ih =>
    rw [List.forall_mem_cons] at h
    rw [String.join_cons]
    exact append h.1 (ih h.2)

end FrontEnd.Text
