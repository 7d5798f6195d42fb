import FrontEnd.Syntax.CharLiteral
import Mathlib.Data.List.Basic

/-!
# What character literals stand for

A literal is read by what stands between its quotes, or by all of it if it is not in quotes. The rules say
for a text without quotes which character it stands for, and when it is an escape that nobody knows; they
leave nothing open, for every other text is empty or too long (`CharLiteral.read_by_rules`).
-/

namespace FrontEnd

namespace CharLiteral

/-- The letters that may stand behind a backslash, each with its character. -/
def escapes : List (Char × Char) :=
  [('\x27', '\x27'), ('\x22', '\x22'), ('\\', '\\'), ('a', '\x07'), ('b', '\x08'), ('f', '\x0c'),
    ('n', '\n'), ('r', '\r'), ('t', '\t'), ('v', '\x0b')]

theorem escape_eq_ok_iff {letter c : Char} :
    ofBody.escape letter = .ok c ↔ (letter, c) ∈ escapes := by
  unfold ofBody.escape escapes
  split <;> simp_all [eq_comm]

theorem escape_eq_error_iff {letter : Char} {fault : CharFault} :
    ofBody.escape letter = .error fault ↔ fault = .unknownEscape ∧ ∀ c, (letter, c) ∉ escapes := by
  unfold ofBody.escape escapes
  split <;> simp_all [eq_comm]

/-! ## Texts without quotes -/

/-- A text without quotes stands for a character: it is the character, or a backslash and the letter of the
character. -/
inductive StandsFor : List Char → Char → Prop
  | plain {c : Char} (ne : c ≠ '\\') : StandsFor [c] c
  | escaped {letter c : Char} (known : (letter, c) ∈ escapes) : StandsFor ['\\', letter] c

/-- A text without quotes is an escape that nobody knows: a backslash alone, or with another letter. -/
inductive UnknownEscape : List Char → Prop
  | alone : UnknownEscape ['\\']
  | letter {letter : Char} (unknown : ∀ c, (letter, c) ∉ escapes) : UnknownEscape ['\\', letter]

theorem ofBody_eq_ok_iff {body : List Char} {c : Char} : ofBody body = .ok c ↔ StandsFor body c := by
  constructor
  · intro h
    unfold ofBody at h
    split at h
    · cases h
    · cases h
    · exact .escaped (escape_eq_ok_iff.1 h)
    · rename_i plain
      obtain rfl := Except.ok.inj h
      exact .plain fun hc => plain (by rw [hc])
    · cases h
  · rintro (plain | known)
    · rw [ofBody]
      simpa using plain
    · exact escape_eq_ok_iff.2 known

theorem ofBody_eq_emptyChar_iff {body : List Char} : ofBody body = .error .emptyChar ↔ body = [] := by
  constructor
  · intro h
    unfold ofBody at h
    split at h
    · rfl
    · cases h
    · cases (escape_eq_error_iff.1 h).1
    · cases h
    · cases h
  · rintro rfl
    rfl

theorem ofBody_eq_unknownEscape_iff {body : List Char} :
    ofBody body = .error .unknownEscape ↔ UnknownEscape body := by
  constructor
  · intro h
    unfold ofBody at h
    split at h
    · cases h
    · exact .alone
    · exact .letter (escape_eq_error_iff.1 h).2
    · cases h
    · cases h
  · rintro (_ | unknown)
    · rfl
    · exact escape_eq_error_iff.2 ⟨rfl, unknown⟩

/-- What is left is too long. -/
theorem ofBody_eq_tooManyChars_iff {body : List Char} :
    ofBody body = .error .tooManyChars ↔
      body ≠ [] ∧ (∀ c, ¬ StandsFor body c) ∧ ¬ UnknownEscape body := by
  rw [Ne, ← ofBody_eq_emptyChar_iff, ← ofBody_eq_unknownEscape_iff]
  simp only [← ofBody_eq_ok_iff]
  cases ofBody body with
  | ok c => simp
  | error fault => cases fault <;> simp

/-! ## Quotes -/

/-- Whether there are two quotes, at both ends of a text. -/
def Quoted (literal : List Char) : Prop :=
  2 ≤ literal.length ∧ literal.head? = some '\x27' ∧ literal.getLast? = some '\x27'

instance (literal : List Char) : Decidable (Quoted literal) := inferInstanceAs (Decidable (_ ∧ _ ∧ _))

/-- A text without its first and its last character if these are quotes. -/
def unquoted (literal : List Char) : List Char :=
  if Quoted literal then literal.tail.dropLast else literal

theorem unquoted_of_not_quoted {literal : List Char} (h : ¬ Quoted literal) : unquoted literal = literal :=
  if_neg h

theorem body_eq_unquoted (literal : List Char) : body literal = unquoted literal := by
  unfold body
  split
  · rename_i rest
    have hquoted : Quoted ('\x27' :: rest) ↔ rest.getLast? = some '\x27' := by
      cases rest with
      | nil => simp [Quoted]
      | cons c rest => simp [Quoted, List.getLast?_cons_cons]
    simp only [unquoted, hquoted, List.tail_cons]
  · rename_i literal hopen
    refine (unquoted_of_not_quoted ?_).symm
    rintro ⟨-, hhead, -⟩
    obtain ⟨rest, hrest⟩ := List.head?_eq_some_iff.1 hhead
    exact hopen rest hrest

theorem unquoted_quoted (text : List Char) : unquoted ('\x27' :: (text ++ ['\x27'])) = text := by
  rw [unquoted, if_pos ⟨by simp, by simp, by simp [List.getLast?_cons]⟩, List.tail_cons,
    List.dropLast_concat]

/-! ## Literals -/

/-- What a literal is read as, by what it is without its quotes. -/
structure ReadByRules (literal : String) (position : Position) : Prop where
  character : ∀ c, read literal position = .ok c ↔ StandsFor (unquoted literal.toList) c
  emptyChar : read literal position = .error { fault := .emptyChar, literal, position } ↔
    unquoted literal.toList = []
  unknownEscape : read literal position = .error { fault := .unknownEscape, literal, position } ↔
    UnknownEscape (unquoted literal.toList)
  /-- This is what is left. -/
  tooManyChars : read literal position = .error { fault := .tooManyChars, literal, position } ↔
    unquoted literal.toList ≠ [] ∧ (∀ c, ¬ StandsFor (unquoted literal.toList) c) ∧
      ¬ UnknownEscape (unquoted literal.toList)
  /-- An error is of the literal as it is, quotes included, and of its position. -/
  error : ∀ e, read literal position = .error e → e.literal = literal ∧ e.position = position

theorem read_eq_ok_iff {literal : String} {position : Position} {c : Char} :
    read literal position = .ok c ↔ StandsFor (unquoted literal.toList) c := by
  rw [← ofBody_eq_ok_iff, ← body_eq_unquoted, read]
  cases ofBody (body literal.toList) <;> simp

theorem read_eq_error_iff (literal : String) (position : Position) (e : CharLiteralError) :
    read literal position = .error e ↔
      e.literal = literal ∧ e.position = position ∧ ofBody (body literal.toList) = .error e.fault := by
  unfold read
  cases ofBody (body literal.toList) with
  | ok c => simp
  | error fault =>
    obtain ⟨fault', literal', position'⟩ := e
    simp [and_comm, and_left_comm, eq_comm]

theorem readByRules (literal : String) (position : Position) : ReadByRules literal position where
  character c := read_eq_ok_iff
  emptyChar := by simp [read_eq_error_iff, body_eq_unquoted, ofBody_eq_emptyChar_iff]
  unknownEscape := by simp [read_eq_error_iff, body_eq_unquoted, ofBody_eq_unknownEscape_iff]
  tooManyChars := by simp [read_eq_error_iff, body_eq_unquoted, ofBody_eq_tooManyChars_iff]
  error e h := by
    obtain ⟨hliteral, hposition, -⟩ := (read_eq_error_iff literal position e).1 h
    exact ⟨hliteral, hposition⟩

/-- Every character has a literal: itself, or two backslashes for the backslash. -/
theorem exists_literal (c : Char) : ∃ literal, ∀ position, read literal position = .ok c := by
  by_cases hc : c = '\\'
  · exact ⟨"\\\\", fun position => by rw [hc]; rfl⟩
  · refine ⟨String.singleton c, fun position => read_eq_ok_iff.2 ?_⟩
    have hquoted : ¬ Quoted [c] := fun h => absurd h.1 (by simp)
    rw [String.toList_singleton, unquoted_of_not_quoted hquoted]
    exact .plain hc

/-- What a text is read as does not depend on quotes around it, if there were none. -/
theorem read_quoted {text : String} (h : ¬ Quoted text.toList) (position : Position) :
    (read ("'" ++ text ++ "'") position).mapError (·.fault)
      = (read text position).mapError (·.fault) := by
  have hquoted : unquoted ("'" ++ text ++ "'").toList = unquoted text.toList := by
    rw [String.toList_append, String.toList_append, unquoted_of_not_quoted h]
    exact unquoted_quoted text.toList
  rw [read, read, body_eq_unquoted, body_eq_unquoted, hquoted]
  cases ofBody (unquoted text.toList) <;> rfl

/-- **Character literals.** Which character a literal is read as, and what is wrong with it if it is none, is
told by the rules; there are ten escapes, of as many characters. So there is a literal for every character,
and quotes around a text that has none make no difference. -/
theorem read_by_rules :
    (∀ literal position, ReadByRules literal position) ∧
      (escapes.length = 10 ∧ (escapes.map Prod.fst).Nodup ∧ (escapes.map Prod.snd).Nodup) ∧
      (∀ c, ∃ literal, ∀ position, read literal position = .ok c) ∧
      ∀ text : String, ¬ Quoted text.toList → ∀ position,
        (read ("'" ++ text ++ "'") position).mapError (·.fault)
          = (read text position).mapError (·.fault) :=
  ⟨readByRules, ⟨rfl, by decide, by decide⟩, exists_literal, fun _ h => read_quoted h⟩

end CharLiteral

end FrontEnd
