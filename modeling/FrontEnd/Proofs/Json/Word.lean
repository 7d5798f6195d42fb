import FrontEnd.Json.Printer
import FrontEnd.Json.Token

/-! # Printed words

A number is printed as a word of digits, with a sign before it and an exponent behind it where it has them.
`number?_numberText` reads it back, whatever its size; whether it is a value of its own depends on its range
alone, and a natural number that fits a word of 64 bits is always inside (`inRange_integer`).
-/

namespace FrontEnd

namespace Json

/-! ## Digits -/

theorem natOfDigits_toDigits (n : Nat) : natOfDigits (Nat.toDigits 10 n) = n := by
  have hdigits : Nat.ofDigitChars 10 (Nat.toDigits 10 n) 0 = n := Nat.ofDigitChars_ten_toDigits
  rw [Nat.ofDigitChars_eq_foldl] at hdigits
  exact hdigits

/-- Different numbers are written differently. -/
theorem repr_inj {m n : Nat} (h : m.repr = n.repr) : m = n := by
  have hdigits : Nat.toDigits 10 m = Nat.toDigits 10 n := by
    rw [← Nat.toList_repr, ← Nat.toList_repr, h]
  rw [← natOfDigits_toDigits m, hdigits, natOfDigits_toDigits]

theorem isDigit_of_mem_toDigits {n : Nat} {c : Char} (h : c ∈ Nat.toDigits 10 n) :
    c.isDigit = true :=
  Nat.isDigit_of_mem_toDigits (by decide) (by decide) h

/-- Only zero is written with a zero in front. -/
theorem head?_toDigits_ne {n : Nat} (h : n ≠ 0) : (Nat.toDigits 10 n).head? ≠ some '0' := by
  induction n using Nat.strongRecOn with
  | ind n ih =>
    rw [Nat.toDigits_eq_if (by decide)]
    split
    · rename_i hlt
      intro hzero
      have hchars : ∀ k < 10, k ≠ 0 → k.digitChar ≠ '0' := by decide
      exact hchars n hlt h (Option.some.inj hzero)
    · rename_i hle
      rw [List.head?_append]
      intro hzero
      have hne : (Nat.toDigits 10 (n / 10)).head? ≠ some '0' := ih (n / 10) (by omega) (by omega)
      obtain ⟨c, cs, hcons⟩ :=
        List.exists_cons_of_ne_nil (Nat.toDigits_ne_nil (n := n / 10) (b := 10))
      rw [hcons] at hzero hne
      exact hne hzero

theorem toDigits_eq_cons (n : Nat) :
    ∃ c cs, Nat.toDigits 10 n = c :: cs ∧ c.isDigit = true := by
  obtain ⟨c, cs, hcons⟩ := List.exists_cons_of_ne_nil (Nat.toDigits_ne_nil (n := n) (b := 10))
  refine ⟨c, cs, hcons, isDigit_of_mem_toDigits (n := n) ?_⟩
  rw [hcons]
  exact List.mem_cons_self

theorem spanDigits_toDigits (n : Nat) (rest : List Char) (h : ∀ c ∈ rest.head?, c.isDigit = false) :
    spanDigits (Nat.toDigits 10 n ++ rest) = (Nat.toDigits 10 n, rest) := by
  have hdigits : ∀ c ∈ Nat.toDigits 10 n, c.isDigit = true := fun c => isDigit_of_mem_toDigits
  rw [spanDigits, List.takeWhile_append_of_pos hdigits, List.dropWhile_append_of_pos hdigits]
  cases rest with
  | nil => simp
  | cons c cs =>
    have hc : c.isDigit = false := h c rfl
    simp [hc]

/-! ## Numbers -/

theorem toDigits_wellFormed (n : Nat) :
    ¬(Nat.toDigits 10 n = [] ∨ ((Nat.toDigits 10 n).head? = some '0' ∧ Nat.toDigits 10 n ≠ ['0'])) := by
  rintro (hnil | ⟨hzero, hmore⟩)
  · exact Nat.toDigits_ne_nil hnil
  · by_cases hn : n = 0
    · subst hn
      exact hmore (by decide)
    · exact head?_toDigits_ne hn hzero

theorem magnitude?_toDigits (n : Nat) : exponent?.magnitude? (Nat.toDigits 10 n) = some (n : Int) := by
  have hall : (Nat.toDigits 10 n).all Char.isDigit = true :=
    List.all_eq_true.mpr fun c => isDigit_of_mem_toDigits
  rw [exponent?.magnitude?, if_pos ⟨Nat.toDigits_ne_nil, hall⟩, natOfDigits_toDigits]

theorem exponent?_repr (scale : Int) : exponent? ('e' :: scale.repr.toList) = some scale := by
  cases scale with
  | ofNat n =>
    obtain ⟨c, cs, hcons, hc⟩ := toDigits_eq_cons n
    have hminus : c ≠ '-' := by
      rintro rfl
      simp at hc
    have hplus : c ≠ '+' := by
      rintro rfl
      simp at hc
    show exponent? ('e' :: n.repr.toList) = some (n : Int)
    rw [Nat.toList_repr, ← magnitude?_toDigits n, hcons, exponent?, if_pos (.inl rfl)]
    · exact fun _ heq => hminus (List.cons.inj heq).1
    · exact fun _ heq => hplus (List.cons.inj heq).1
  | negSucc n =>
    show exponent? ('e' :: ("-" ++ (n + 1).repr).toList) = some (Int.negSucc n)
    rw [String.toList_append, Nat.toList_repr]
    show (exponent?.magnitude? (Nat.toDigits 10 (n + 1))).map (fun n => -n) = some (Int.negSucc n)
    rw [magnitude?_toDigits]
    rfl

theorem unsigned?_toDigits (negative : Bool) (n : Nat) :
    unsigned? negative (Nat.toDigits 10 n) = some (.integer negative n) := by
  have hspan := spanDigits_toDigits n [] (by simp)
  rw [List.append_nil] at hspan
  simp only [unsigned?, hspan]
  rw [if_neg (toDigits_wellFormed n), natOfDigits_toDigits]

theorem unsigned?_toDigits_exponent (negative : Bool) (n : Nat) (scale : Int) :
    unsigned? negative (Nat.toDigits 10 n ++ 'e' :: scale.repr.toList)
      = some (.decimal negative n scale) := by
  have hspan := spanDigits_toDigits n ('e' :: scale.repr.toList) (by simp)
  simp only [unsigned?, hspan]
  rw [if_neg (toDigits_wellFormed n), natOfDigits_toDigits]
  show (exponent? ('e' :: scale.repr.toList)).map (fun e => Number.decimal negative n e) = _
  rw [exponent?_repr, Option.map_some]

/-- A text is read as a number without sign if it starts with a digit. -/
theorem number?_of_isDigit {c : Char} (cs : List Char) (h : c.isDigit = true) :
    number? (c :: cs) = unsigned? false (c :: cs) := by
  have hne : c ≠ '-' := by
    rintro rfl
    simp at h
  simp [number?, hne]

theorem number?_sign_append (negative : Bool) (n : Nat) (rest : List Char) :
    number? ((if negative then "-" else "").toList ++ (Nat.toDigits 10 n ++ rest))
      = unsigned? negative (Nat.toDigits 10 n ++ rest) := by
  cases negative with
  | true => rfl
  | false =>
    obtain ⟨c, cs, hcons, hc⟩ := toDigits_eq_cons n
    rw [hcons]
    exact number?_of_isDigit _ hc

/-- A number is read back as it was printed. -/
theorem number?_numberText (n : Number) : number? (numberText n).toList = some n := by
  cases n with
  | integer negative n =>
    have hread := number?_sign_append negative n []
    rw [List.append_nil] at hread
    rw [numberText, String.toList_append, Nat.toList_repr, hread, unsigned?_toDigits]
  | decimal negative digits scale =>
    have hread := number?_sign_append negative digits ('e' :: scale.repr.toList)
    rw [numberText, String.toList_append, String.toList_append, String.toList_append, Nat.toList_repr]
    simp only [List.append_assoc]
    exact hread.trans (unsigned?_toDigits_exponent negative digits scale)

/-! ## Range -/

/-- A natural number that fits a word is far below the greatest double, with a sign or without. -/
theorem inRange_integer (negative : Bool) {n : Nat} (h : n < UInt64.size) :
    (Number.integer negative n).inRange = true := by
  have hlog : n.log2 - 52 ≤ 64 := by
    have hlt : n.log2 < 64 := by
      by_cases hn : n = 0
      · subst hn
        decide
      · exact (Nat.log2_lt hn).mpr h
    omega
  have hplace : Number.lastPlace n ≤ 2 ^ 64 := by
    rw [Number.lastPlace, Nat.one_shiftLeft]
    exact Nat.pow_le_pow_right (by decide) hlog
  have hnear := (Number.rounded_near n).1
  have hsize : UInt64.size = 2 ^ 64 := rfl
  have hlimit : 2 ^ 65 < Number.doubleLimit := by decide +kernel
  have hone : Number.rounded (Nat.pow 10 0) = 1 := by decide
  have hbelow : Number.rounded n * Number.rounded (Nat.pow 10 0) < Number.doubleLimit := by
    rw [hone]
    omega
  simp only [Number.inRange, Number.digitsAndScale, Number.leading_of_lt h]
  show (n == 0 || (decide (0 ≤ Number.greatestPower)
    && decide (Number.rounded n * Number.rounded (Nat.pow 10 0) < Number.doubleLimit))) = true
  rw [decide_eq_true hbelow, decide_eq_true (Nat.zero_le _)]
  simp

/-! ## Words -/

/-- The characters of a word, and the value that it stands for. -/
structure IsWord (cs : List Char) (value : Json) : Prop where
  ne_nil : cs ≠ []
  whole : ∀ c ∈ cs, endsWord c = false
  value_eq : word? cs = some value

theorem isWord_null : IsWord "null".toList .null where
  ne_nil := by decide
  whole := by simp [endsWord, isBlank, punctuation?]
  value_eq := rfl

theorem isWord_true : IsWord "true".toList (.bool true) where
  ne_nil := by decide
  whole := by simp [endsWord, isBlank, punctuation?]
  value_eq := rfl

theorem isWord_false : IsWord "false".toList (.bool false) where
  ne_nil := by decide
  whole := by simp [endsWord, isBlank, punctuation?]
  value_eq := rfl

theorem endsWord_of_isDigit {c : Char} (h : c.isDigit = true) : endsWord c = false := by
  have hne : ∀ d : Char, d.isDigit = false → c ≠ d := by
    rintro d hd rfl
    rw [h] at hd
    exact absurd hd (by decide)
  simp [endsWord, isBlank, punctuation?, hne ' ' (by decide), hne '\n' (by decide),
    hne '\r' (by decide), hne '\t' (by decide), hne '\x22' (by decide), hne '[' (by decide),
    hne ']' (by decide), hne '\x7b' (by decide), hne '\x7d' (by decide), hne ':' (by decide),
    hne ',' (by decide)]

theorem endsWord_of_mem_repr {n : Nat} {c : Char} (h : c ∈ n.repr.toList) : endsWord c = false := by
  rw [Nat.toList_repr] at h
  exact endsWord_of_isDigit (isDigit_of_mem_toDigits h)

theorem endsWord_of_mem_sign (negative : Bool) {c : Char}
    (h : c ∈ (if negative then "-" else "").toList) : endsWord c = false := by
  cases negative with
  | true =>
    obtain rfl : c = '-' := by simpa using h
    decide
  | false => simp at h

theorem endsWord_of_mem_intRepr {n : Int} {c : Char} (h : c ∈ n.repr.toList) :
    endsWord c = false := by
  cases n with
  | ofNat n => exact endsWord_of_mem_repr h
  | negSucc n =>
    replace h : c ∈ ("-" ++ (n + 1).repr).toList := h
    rw [String.toList_append] at h
    rcases List.mem_append.mp h with hsign | hdigits
    · exact endsWord_of_mem_sign true hsign
    · exact endsWord_of_mem_repr hdigits

theorem endsWord_of_mem_numberText {n : Number} {c : Char} (h : c ∈ (numberText n).toList) :
    endsWord c = false := by
  cases n with
  | integer negative n =>
    rw [numberText, String.toList_append] at h
    rcases List.mem_append.mp h with hsign | hdigits
    · exact endsWord_of_mem_sign _ hsign
    · exact endsWord_of_mem_repr hdigits
  | decimal negative digits scale =>
    simp only [numberText, String.toList_append, List.mem_append] at h
    rcases h with ((hsign | hdigits) | hmark) | hscale
    · exact endsWord_of_mem_sign _ hsign
    · exact endsWord_of_mem_repr hdigits
    · obtain rfl : c = 'e' := by simpa using hmark
      decide
    · exact endsWord_of_mem_intRepr hscale

theorem isWord_numberText {n : Number} (h : n.inRange = true) :
    IsWord (numberText n).toList (.number n) := by
  have hread := number?_numberText n
  have hne : ∀ cs, number? cs = none → (numberText n).toList ≠ cs := by
    intro cs hnone heq
    rw [heq, hnone] at hread
    exact absurd hread (by simp)
  refine ⟨hne [] rfl, fun c => endsWord_of_mem_numberText, ?_⟩
  rw [word?, if_neg (hne _ (by decide)), if_neg (hne _ (by decide)), if_neg (hne _ (by decide)), hread,
    Option.map_some, if_pos h]

end Json

end FrontEnd
