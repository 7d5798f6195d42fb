import FrontEnd.Json.Basic

/-! # The range of numbers

A number is taken as a double in steps. Its first digits are kept, as many as fit a word; they and the
power of ten behind them are each rounded to a double; and the product of the two is rounded once more. A
number whose product rounds to infinity is beyond the range. Near the limit this is not quite the nearest
double of the number itself: the roundings add up, and a digit that was dropped has no say.
-/

namespace FrontEnd.Number

/-- The first digits of a natural number that fit a word, and how many digits follow them. -/
def leading (n : Nat) : Nat × Nat :=
  if n < UInt64.size then (n, 0)
  else
    let first := leading (n / 10)
    (first.1, first.2 + 1)
termination_by n
decreasing_by
  simp only [UInt64.size] at *
  omega

theorem leading_of_lt {n : Nat} (h : n < UInt64.size) : leading n = (n, 0) := by
  rw [leading, if_pos h]

/-- What the last of the first 53 binary digits of a natural number stands for. -/
def lastPlace (n : Nat) : Nat := 1 <<< (n.log2 - 52)

theorem lastPlace_pos (n : Nat) : 0 < lastPlace n := by
  rw [lastPlace, Nat.one_shiftLeft]
  exact Nat.two_pow_pos _

/-- The nearest natural number of 53 binary digits, zeros behind them aside; a tie goes to the one whose
last of these digits is even. -/
def rounded (n : Nat) : Nat :=
  let unit := lastPlace n
  let rest := n % unit
  if unit < 2 * rest ∨ (unit = 2 * rest ∧ n / unit % 2 = 1) then n - rest + unit else n - rest

/-- Rounding moves a number by half a unit at most. -/
theorem rounded_near (n : Nat) :
    2 * rounded n ≤ 2 * n + lastPlace n ∧ 2 * n ≤ 2 * rounded n + lastPlace n := by
  have hle : n % lastPlace n ≤ n := Nat.mod_le ..
  have hlt : n % lastPlace n < lastPlace n := Nat.mod_lt n (lastPlace_pos n)
  simp only [rounded]
  split <;> omega

/-- The digits of a number, and the power of ten that they stand in front of. -/
def digitsAndScale : Number → Nat × Int
  | .integer _ magnitude => (magnitude, 0)
  | .decimal _ digits scale => (digits, scale)

/-- The least number that rounds to infinity in double precision. -/
def doubleLimit : Nat := 1 <<< 1024 - 1 <<< 970

/-- The greatest power of ten that is a double. -/
def greatestPower : Nat := 308

/-- Whether a number is in the range of double precision. -/
def inRange (n : Number) : Bool :=
  let (digits, scale) := n.digitsAndScale
  let (kept, dropped) := leading digits
  match scale + dropped with
  | .negSucc _ => true
  | .ofNat e =>
    kept == 0 || (e ≤ greatestPower && rounded kept * rounded (Nat.pow 10 e) < doubleLimit)

end FrontEnd.Number
