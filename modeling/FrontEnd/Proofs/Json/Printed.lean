import FrontEnd.Json.Reader
import FrontEnd.Proofs.Json.Word
import Mathlib.Data.List.Forall2

/-! # What is printed is read back

A printed value is the texts of its tokens, one after another, with blanks at the starts of lines. The
argument has two halves. A text *spells* tokens if it is scanned as these tokens from a place between two of
them, and a text *marks* tokens if it does so right behind a bare word too; values spell, brackets and
separators mark, and `spells_prettyAt` follows the layout. The reader then takes the tokens of a value and
completes it (`foldlM_tokens`), whatever is open around it.
-/

namespace FrontEnd.Json

/-! ## Texts of tokens -/

/-- A state of the scan in which some tokens are complete, last first. The last of them may be a bare word
with its end still to come. -/
structure Settled (s : List Token × Scan) (tokens : List Token) : Prop where
  scanEnd_eq : scanEnd s = some tokens.reverse
  scanChar_eq : ∀ c, endsWord c = true → scanChar s c = scanBetween tokens c

theorem settled_between (tokens : List Token) : Settled (tokens, .between) tokens where
  scanEnd_eq := rfl
  scanChar_eq := fun _ _ => rfl

theorem settled_word {read : List Char} {value : Json} (tokens : List Token)
    (h : word? read.reverse = some value) : Settled (tokens, .word read) (.scalar value :: tokens) where
  scanEnd_eq := by rw [scanEnd, h, Option.map_some]
  scanChar_eq := by
    intro c hc
    rw [scanChar, if_pos hc, h, Option.bind_some]

/-- A text that is scanned as some tokens from between two tokens. -/
def Spells (text : String) (tokens : List Token) : Prop :=
  ∀ before, ∃ s, text.toList.foldlM scanChar (before, .between) = some s ∧
    Settled s (tokens.reverse ++ before)

/-- A text that ends a word in front of it, and is scanned as some complete tokens. -/
def Marks (text : String) (tokens : List Token) : Prop :=
  ∀ s before, Settled s before →
    text.toList.foldlM scanChar s = some (tokens.reverse ++ before, .between)

section

variable {a b c : String} {ts us vs : List Token}

theorem Marks.spells (h : Marks a ts) : Spells a ts := by
  intro before
  exact ⟨_, h _ before (settled_between before), settled_between _⟩

theorem Marks.append (ha : Marks a ts) (hb : Marks b us) : Marks (a ++ b) (ts ++ us) := by
  intro s before hs
  rw [String.toList_append, List.foldlM_append, ha s before hs, List.reverse_append, List.append_assoc]
  exact hb _ _ (settled_between _)

theorem Spells.append_marks (ha : Spells a ts) (hb : Marks b us) : Spells (a ++ b) (ts ++ us) := by
  intro before
  obtain ⟨s, hscan, hs⟩ := ha before
  refine ⟨_, ?_, settled_between _⟩
  rw [String.toList_append, List.foldlM_append, hscan, List.reverse_append, List.append_assoc]
  exact hb s _ hs

theorem Marks.append_spells (ha : Marks a ts) (hb : Spells b us) : Spells (a ++ b) (ts ++ us) := by
  intro before
  obtain ⟨s, hscan, hs⟩ := hb (ts.reverse ++ before)
  refine ⟨s, ?_, ?_⟩
  · rw [String.toList_append, List.foldlM_append, ha _ before (settled_between before)]
    exact hscan
  · rw [List.reverse_append, List.append_assoc]
    exact hs

/-- A mark keeps what is spelled before it apart from what is spelled behind it. -/
theorem Spells.append_append (ha : Spells a ts) (hb : Marks b us) (hc : Spells c vs) :
    Spells (a ++ b ++ c) (ts ++ us ++ vs) := by
  intro before
  obtain ⟨s, hscan, hs⟩ := ha before
  obtain ⟨s', hscan', hs'⟩ := hc (us.reverse ++ (ts.reverse ++ before))
  refine ⟨s', ?_, ?_⟩
  · rw [String.toList_append, String.toList_append, List.foldlM_append, List.foldlM_append, hscan]
    show (b.toList.foldlM scanChar s >>= fun s => c.toList.foldlM scanChar s) = some s'
    rw [hb s _ hs]
    exact hscan'
  · simpa using hs'

/-- A text that spells some tokens is cut into them. -/
theorem Spells.tokens?_eq (h : Spells a ts) : tokens? a.toList = some ts := by
  obtain ⟨s, hscan, hs⟩ := h []
  rw [tokens?, hscan, Option.bind_some, hs.scanEnd_eq, List.append_nil, List.reverse_reverse]

end

/-! ## Brackets, separators and blanks -/

theorem endsWord_of_isBlank {c : Char} (h : isBlank c = true) : endsWord c = true := by
  rw [endsWord, h]
  rfl

theorem foldlM_blanks (tokens : List Token) {cs : List Char} (h : ∀ c ∈ cs, isBlank c = true) :
    cs.foldlM scanChar (tokens, .between) = some (tokens, .between) := by
  induction cs with
  | nil => rfl
  | cons c cs ih =>
    obtain ⟨hc, hcs⟩ := List.forall_mem_cons.mp h
    rw [List.foldlM_cons, scanChar, scanBetween, if_pos hc]
    exact ih hcs

theorem marks_of_isBlank {text : String} {c : Char} {cs : List Char} (htext : text.toList = c :: cs)
    (h : ∀ d ∈ c :: cs, isBlank d = true) : Marks text [] := by
  intro s before hs
  obtain ⟨hc, hcs⟩ := List.forall_mem_cons.mp h
  rw [htext, List.foldlM_cons, hs.scanChar_eq c (endsWord_of_isBlank hc), scanBetween, if_pos hc]
  exact foldlM_blanks before hcs

theorem marks_lineStart (depth : Nat) : Marks (lineStart depth) [] := by
  have htext : (lineStart depth).toList = '\n' :: List.replicate (2 * depth) ' ' := by
    simp [lineStart, Text.blanks]
  refine marks_of_isBlank htext (List.forall_mem_cons.mpr ⟨by decide, ?_⟩)
  intro d hd
  rw [(List.mem_replicate.mp hd).2]
  decide

theorem marks_punctuation {text : String} {c : Char} {token : Token} (htext : text.toList = [c])
    (h : punctuation? c = some token) : Marks text [token] := by
  intro s before hs
  have hends : endsWord c = true := by
    rw [endsWord, h]
    simp
  have hne : ∀ d, punctuation? d = none → c ≠ d := by
    rintro d hd rfl
    rw [h] at hd
    exact absurd hd (by simp)
  have hblank : isBlank c = false := by
    simp [isBlank, hne ' ' (by decide), hne '\n' (by decide), hne '\r' (by decide), hne '\t' (by decide)]
  rw [htext, List.foldlM_cons, hs.scanChar_eq c hends, scanBetween, hblank, if_neg (by decide),
    if_neg (hne '\x22' (by decide)), h]
  rfl

theorem marks_beginArray : Marks "[" [.beginArray] := marks_punctuation (c := '[') rfl rfl

theorem marks_endArray : Marks "]" [.endArray] := marks_punctuation (c := ']') rfl rfl

theorem marks_beginObject : Marks "\x7b" [.beginObject] := marks_punctuation (c := '\x7b') rfl rfl

theorem marks_endObject : Marks "\x7d" [.endObject] := marks_punctuation (c := '\x7d') rfl rfl

theorem marks_valueSeparator (depth : Nat) : Marks ("," ++ lineStart depth) [.valueSeparator] :=
  (marks_punctuation (c := ',') rfl rfl).append (marks_lineStart depth)

theorem marks_nameSeparator : Marks ": " [.nameSeparator] := by
  have hcolon : Marks ":" [.nameSeparator] := marks_punctuation (c := ':') rfl rfl
  have hblank : Marks " " [] := marks_of_isBlank rfl (List.forall_mem_singleton.mpr rfl)
  exact hcolon.append hblank

/-! ## Strings -/

theorem hexDigit?_hexDigit : ∀ n < 16, hexDigit? (hexDigit n) = some n := by decide

/-- The four digits of a code unit below 32. -/
theorem foldlM_unit (tokens : List Token) (read : List Char) {n : Nat} (h : n < 32) :
    ['\\', 'u', '0', '0', hexDigit (n / 16), hexDigit (n % 16)].foldlM scanChar
        (tokens, .string (some read))
      = some (tokens, .string (some (Char.ofNat n :: read))) := by
  have hhigh := hexDigit?_hexDigit (n / 16) (by omega)
  have hlow := hexDigit?_hexDigit (n % 16) (by omega)
  show [hexDigit (n / 16), hexDigit (n % 16)].foldlM scanChar (tokens, .unit (some read) none 0 2) = _
  have hfirst : scanChar (tokens, .unit (some read) none 0 2) (hexDigit (n / 16))
      = some (tokens, .unit (some read) none (n / 16) 1) := by
    simp [scanChar, hhigh]
  have hunit : 16 * (n / 16) + n % 16 = n := Nat.div_add_mod n 16
  have hsecond : scanChar (tokens, .unit (some read) none (n / 16) 1) (hexDigit (n % 16))
      = some (tokens, .string (some (Char.ofNat n :: read))) := by
    simp only [scanChar, hlow, Option.map_some, hunit, unitRead]
    rw [if_pos (by decide), if_neg (by omega), if_neg (by omega)]
  rw [List.foldlM_cons, hfirst]
  show ([hexDigit (n % 16)].foldlM scanChar (tokens, .unit (some read) none (n / 16) 1)) = _
  rw [List.foldlM_cons, hsecond]
  rfl

theorem foldlM_escapeChar (tokens : List Token) (read : List Char) (c : Char) :
    (escapeChar c).foldlM scanChar (tokens, .string (some read))
      = some (tokens, .string (some (c :: read))) := by
  unfold escapeChar
  split_ifs with hquote hslash hback hfeed hline hreturn htab hcontrol
  · subst hquote; rfl
  · subst hslash; rfl
  · subst hback; rfl
  · subst hfeed; rfl
  · subst hline; rfl
  · subst hreturn; rfl
  · subst htab; rfl
  · rw [foldlM_unit tokens read hcontrol, Char.ofNat_toNat]
  · have hplain : ¬ c < ' ' := hcontrol
    rw [List.foldlM_cons, scanChar, scanString, if_neg hquote, if_neg hslash, if_neg hplain]
    rfl

theorem foldlM_escaped (tokens : List Token) (read cs : List Char) :
    (cs.flatMap escapeChar).foldlM scanChar (tokens, .string (some read))
      = some (tokens, .string (some (cs.reverse ++ read))) := by
  induction cs generalizing read with
  | nil => rfl
  | cons c cs ih =>
    rw [List.flatMap_cons, List.foldlM_append, foldlM_escapeChar]
    refine (ih (c :: read)).trans ?_
    rw [List.reverse_cons, List.append_assoc]
    rfl

theorem spells_quoted (text : String) : Spells (quoted text) [.text (some text)] := by
  intro before
  refine ⟨_, ?_, settled_between _⟩
  have htext : (quoted text).toList = '\x22' :: (text.toList.flatMap escapeChar ++ ['\x22']) := by
    simp [quoted]
  rw [htext, List.foldlM_cons]
  show (text.toList.flatMap escapeChar ++ ['\x22']).foldlM scanChar (before, .string (some [])) = _
  rw [List.foldlM_append, foldlM_escaped, List.append_nil]
  show some (Token.text (some (String.ofList text.toList.reverse.reverse)) :: before, Scan.between) = _
  rw [List.reverse_reverse, String.ofList_toList]
  rfl

/-! ## Words -/

theorem foldlM_word (tokens : List Token) (read : List Char) {cs : List Char}
    (h : ∀ c ∈ cs, endsWord c = false) :
    cs.foldlM scanChar (tokens, .word read) = some (tokens, .word (cs.reverse ++ read)) := by
  induction cs generalizing read with
  | nil => rfl
  | cons c cs ih =>
    obtain ⟨hc, hcs⟩ := List.forall_mem_cons.mp h
    rw [List.foldlM_cons, scanChar, hc, if_neg (by decide)]
    refine (ih (c :: read) hcs).trans ?_
    rw [List.reverse_cons, List.append_assoc]
    rfl

theorem scanBetween_of_not_endsWord (tokens : List Token) {c : Char} (h : endsWord c = false) :
    scanBetween tokens c = some (tokens, .word [c]) := by
  simp only [endsWord, Bool.or_eq_false_iff] at h
  obtain ⟨⟨hblank, hquote⟩, hpunctuation⟩ := h
  have hnone : punctuation? c = none := by simpa using hpunctuation
  rw [scanBetween, hblank, if_neg (by decide), if_neg (beq_eq_false_iff_ne.mp hquote), hnone]

theorem IsWord.spells {text : String} {value : Json} (h : IsWord text.toList value) :
    Spells text [.scalar value] := by
  intro before
  obtain ⟨c, cs, hcons⟩ := List.exists_cons_of_ne_nil h.ne_nil
  have hwhole := h.whole
  have hvalue := h.value_eq
  rw [hcons] at hwhole hvalue
  obtain ⟨hc, hcs⟩ := List.forall_mem_cons.mp hwhole
  refine ⟨(before, .word (cs.reverse ++ [c])), ?_, ?_⟩
  · rw [hcons, List.foldlM_cons, scanChar, scanBetween_of_not_endsWord before hc]
    exact foldlM_word before [c] hcs
  · refine settled_word before ?_
    rw [List.reverse_append, List.reverse_reverse]
    exact hvalue

/-! ## Tokens of a value -/

/-- Lists of tokens with separators between them. -/
def separated (lists : List (List Token)) : List Token := [Token.valueSeparator].intercalate lists

mutual

def tokens : Json → List Token
  | .string text => [.text (some text)]
  | .array items => .beginArray :: (separated (itemTokens items) ++ [.endArray])
  | .object fields => .beginObject :: (separated (fieldTokens fields) ++ [.endObject])
  | value => [.scalar value]

def itemTokens : List Json → List (List Token)
  | [] => []
  | item :: rest => item.tokens :: itemTokens rest

def fieldTokens : List (String × Json) → List (List Token)
  | [] => []
  | (name, value) :: rest => (.text (some name) :: .nameSeparator :: value.tokens) :: fieldTokens rest

end

mutual

/-- Whether a value is printed as what it is: it can be read, and its numbers are in range. -/
def isPrintable : Json → Bool
  | .number n => n.inRange
  | .array items => itemsPrintable items
  | .object fields => fieldsPrintable fields
  | .unreadable => false
  | _ => true

def itemsPrintable : List Json → Bool
  | [] => true
  | item :: rest => item.isPrintable && itemsPrintable rest

def fieldsPrintable : List (String × Json) → Bool
  | [] => true
  | (_, value) :: rest => value.isPrintable && fieldsPrintable rest

end

theorem isPrintable_object {fields : List (String × Json)} :
    (object fields).isPrintable = true ↔ ∀ field ∈ fields, field.2.isPrintable = true := by
  rw [isPrintable]
  induction fields with
  | nil => simp [fieldsPrintable]
  | cons field rest ih => simp [fieldsPrintable, ih]

theorem isPrintable_array {items : List Json} :
    (array items).isPrintable = true ↔ ∀ item ∈ items, item.isPrintable = true := by
  rw [isPrintable]
  induction items with
  | nil => simp [itemsPrintable]
  | cons item rest ih => simp [itemsPrintable, ih]

/-! ## The layout spells the tokens -/

theorem spells_intercalate {separator text : String} {first : List Token} {texts : List String}
    {lists : List (List Token)} (hseparator : Marks separator [.valueSeparator])
    (h : List.Forall₂ Spells (text :: texts) (first :: lists)) :
    Spells (separator.intercalate (text :: texts)) (separated (first :: lists)) := by
  induction texts generalizing text first lists with
  | nil =>
    obtain ⟨htext, hrest⟩ := List.forall₂_cons.mp h
    obtain rfl := List.forall₂_nil_left_iff.mp hrest
    rw [String.intercalate_singleton, separated, List.intercalate_singleton]
    exact htext
  | cons next texts ih =>
    obtain ⟨htext, hrest⟩ := List.forall₂_cons.mp h
    obtain ⟨second, more, -, -, rfl⟩ := List.forall₂_cons_left_iff.mp hrest
    rw [String.intercalate_cons_cons, separated, List.intercalate_cons_cons]
    exact htext.append_append hseparator (ih hrest)

theorem spells_block {first last : String} {opening closing : Token} {texts : List String}
    {lists : List (List Token)} (depth : Nat) (hfirst : Marks first [opening])
    (hlast : Marks last [closing]) (h : List.Forall₂ Spells texts lists) :
    Spells (block depth first last texts) (opening :: (separated lists ++ [closing])) := by
  cases texts with
  | nil =>
    obtain rfl := List.forall₂_nil_left_iff.mp h
    exact (hfirst.append hlast).spells
  | cons text texts =>
    obtain ⟨list, more, -, -, rfl⟩ := List.forall₂_cons_left_iff.mp h
    have hinner := spells_intercalate (marks_valueSeparator (depth + 1)) h
    have hopen := (hfirst.append (marks_lineStart (depth + 1))).append_spells hinner
    have hall := hopen.append_marks ((marks_lineStart depth).append hlast)
    rw [block, if_neg (by simp)]
    simpa [String.append_assoc] using hall

mutual

theorem spells_prettyAt : ∀ (value : Json) (depth : Nat), value.isPrintable = true →
    Spells (value.prettyAt depth) value.tokens
  | .null, _, _ => IsWord.spells isWord_null
  | .bool true, _, _ => IsWord.spells isWord_true
  | .bool false, _, _ => IsWord.spells isWord_false
  | .number _, _, h => IsWord.spells (isWord_numberText h)
  | .string text, _, _ => spells_quoted text
  | .array items, depth, h =>
    spells_block depth marks_beginArray marks_endArray
      (spells_prettyItems items (depth + 1) h)
  | .object fields, depth, h =>
    spells_block depth marks_beginObject marks_endObject
      (spells_prettyFields fields (depth + 1) h)

theorem spells_prettyItems : ∀ (items : List Json) (depth : Nat), itemsPrintable items = true →
    List.Forall₂ Spells (prettyItems depth items) (itemTokens items)
  | [], _, _ => .nil
  | item :: rest, depth, h => by
    obtain ⟨hitem, hrest⟩ := Bool.and_eq_true_iff.mp h
    exact .cons (spells_prettyAt item depth hitem) (spells_prettyItems rest depth hrest)

theorem spells_prettyFields : ∀ (fields : List (String × Json)) (depth : Nat),
    fieldsPrintable fields = true →
    List.Forall₂ Spells (prettyFields depth fields) (fieldTokens fields)
  | [], _, _ => .nil
  | (name, value) :: rest, depth, h => by
    obtain ⟨hvalue, hrest⟩ := Bool.and_eq_true_iff.mp h
    have hfield : Spells (quoted name ++ ": " ++ value.prettyAt depth)
        (.text (some name) :: .nameSeparator :: value.tokens) :=
      (spells_quoted name).append_append marks_nameSeparator (spells_prettyAt value depth hvalue)
    exact .cons hfield (spells_prettyFields rest depth hrest)

end

/-! ## The reader takes the tokens -/

theorem separated_cons (first : List Token) (lists : List (List Token)) :
    ∃ more, separated (first :: lists) = first ++ more := by
  cases lists with
  | nil => exact ⟨[], by rw [separated, List.intercalate_singleton, List.append_nil]⟩
  | cons second lists =>
    rw [separated, List.intercalate_cons_cons, List.append_assoc]
    exact ⟨_, rfl⟩

/-- A value starts the items of an array as it does behind a separator. -/
theorem foldlM_firstItem (item : Json) (rest : List Json) (behind : List Token) (frames : List Frame) :
    (separated (itemTokens (item :: rest)) ++ behind).foldlM readToken (frames, .firstItem)
      = (separated (itemTokens (item :: rest)) ++ behind).foldlM readToken
          (.array [] :: frames, .value) := by
  have hstart : ∃ token more, item.tokens = token :: more ∧
      readToken (frames, .firstItem) token = readToken (.array [] :: frames, .value) token := by
    cases item <;> exact ⟨_, _, rfl, rfl⟩
  obtain ⟨token, more, htokens, hread⟩ := hstart
  obtain ⟨others, hothers⟩ := separated_cons item.tokens (itemTokens rest)
  rw [itemTokens, hothers, htokens]
  simp only [List.cons_append, List.foldlM_cons, hread]

/-- A name starts the fields of an object as it does behind a separator. -/
theorem foldlM_firstName (field : String × Json) (rest : List (String × Json)) (behind : List Token)
    (frames : List Frame) :
    (separated (fieldTokens (field :: rest)) ++ behind).foldlM readToken (frames, .firstName)
      = (separated (fieldTokens (field :: rest)) ++ behind).foldlM readToken (frames, .nextName []) := by
  obtain ⟨others, hothers⟩ := separated_cons
    (.text (some field.1) :: .nameSeparator :: field.2.tokens) (fieldTokens rest)
  rw [fieldTokens, hothers]
  rfl

/-- The fields of an open object that are readable fields, the last of them first. -/
def opened (fields : List (String × Json)) : OpenFields :=
  (fields.map fun field => (some field.1, field.2)).reverse

theorem closeObject_opened (fields : List (String × Json)) :
    closeObject (opened fields) = .object fields := by
  have hnames : (fields.map fun field => (some field.1, field.2)).mapM
      (fun field : Option String × Json => field.1.map fun name => (name, field.2)) = some fields := by
    induction fields with
    | nil => rfl
    | cons field rest ih =>
      rw [List.map_cons, List.mapM_cons, ih]
      rfl
  rw [closeObject, opened, List.reverse_reverse, hnames]

mutual

theorem foldlM_tokens : ∀ (value : Json) (frames : List Frame),
    value.tokens.foldlM readToken (frames, .value) = some (complete value frames)
  | .null, _ => rfl
  | .bool _, _ => rfl
  | .number _, _ => rfl
  | .string _, _ => rfl
  | .unreadable, _ => rfl
  | .array [], _ => rfl
  | .array (item :: rest), frames => by
    rw [tokens, List.foldlM_cons]
    show (separated (itemTokens (item :: rest)) ++ [Token.endArray]).foldlM readToken
      (frames, .firstItem) = _
    rw [foldlM_firstItem, List.foldlM_append, foldlM_itemTokens (item :: rest) [] frames (by simp)]
    show some (complete (.array ((item :: rest).reverse ++ []).reverse) frames) = _
    rw [List.append_nil, List.reverse_reverse]
  | .object [], _ => rfl
  | .object (field :: rest), frames => by
    rw [tokens, List.foldlM_cons]
    show (separated (fieldTokens (field :: rest)) ++ [Token.endObject]).foldlM readToken
      (frames, .firstName) = _
    rw [foldlM_firstName, List.foldlM_append, foldlM_fieldTokens (field :: rest) [] frames (by simp)]
    show some (complete (closeObject (opened (field :: rest) ++ [])) frames) = _
    rw [List.append_nil, closeObject_opened]

theorem foldlM_itemTokens : ∀ (items taken : List Json) (frames : List Frame), items ≠ [] →
    (separated (itemTokens items)).foldlM readToken (.array taken :: frames, .value)
      = some (frames, .moreItems (items.reverse ++ taken))
  | [], _, _, h => absurd rfl h
  | [item], taken, frames, _ => by
    rw [itemTokens, itemTokens, separated, List.intercalate_singleton, foldlM_tokens item]
    rfl
  | item :: next :: rest, taken, frames, _ => by
    -- The item is completed into the open array, and the separator makes it wait for the next one.
    have hrest := foldlM_itemTokens (next :: rest) (item :: taken) frames (by simp)
    rw [itemTokens, itemTokens, separated, List.intercalate_cons_cons, List.append_assoc,
      List.foldlM_append, foldlM_tokens item]
    refine (Eq.trans ?_ hrest).trans (by simp)
    rfl

theorem foldlM_fieldTokens : ∀ (fields : List (String × Json)) (taken : OpenFields)
    (frames : List Frame), fields ≠ [] →
    (separated (fieldTokens fields)).foldlM readToken (frames, .nextName taken)
      = some (frames, .moreFields (opened fields ++ taken))
  | [], _, _, h => absurd rfl h
  | [(name, value)], taken, frames, _ => by
    rw [fieldTokens, fieldTokens, separated, List.intercalate_singleton]
    exact foldlM_tokens value (.object taken (some name) :: frames)
  | (name, value) :: next :: rest, taken, frames, _ => by
    have hrest := foldlM_fieldTokens (next :: rest) ((some name, value) :: taken) frames (by simp)
    have hvalue := foldlM_tokens value (.object taken (some name) :: frames)
    rw [fieldTokens, fieldTokens, separated, List.intercalate_cons_cons, List.append_assoc,
      List.foldlM_append]
    refine (Eq.trans ?_ hrest).trans (by simp [opened])
    show (value.tokens.foldlM readToken (.object taken (some name) :: frames, .value) >>= _) = _
    rw [hvalue]
    rfl

end

/-- **A printed value is read back.** -/
theorem read?_pretty {value : Json} (h : value.isPrintable = true) : read? value.pretty = some value := by
  rw [read?, pretty, (spells_prettyAt value 0 h).tokens?_eq, Option.bind_some, ofTokens?, foldlM_tokens]
  rfl

end FrontEnd.Json
