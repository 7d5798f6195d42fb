import FrontEnd.Json.Range

/-! # JSON tokens

A text is cut into tokens in one pass from left to right. What has been read of a token that is not
complete yet is the `Scan` state, so a text that is cut in two is scanned piece by piece.
-/

namespace FrontEnd.Json

/-- A token of a JSON text. -/
inductive Token where
  | beginArray
  | endArray
  | beginObject
  | endObject
  | nameSeparator
  | valueSeparator
  /-- A string, with its escapes resolved; none if half of a surrogate pair stands alone in it. -/
  | text (value : Option String)
  /-- A number, a truth value or null. -/
  | scalar (value : Json)

/-- The blanks that may stand between tokens. -/
def isBlank (c : Char) : Bool :=
  c == ' ' || c == '\n' || c == '\r' || c == '\t'

def punctuation? (c : Char) : Option Token :=
  if c = '[' then some .beginArray
  else if c = ']' then some .endArray
  else if c = '\x7b' then some .beginObject
  else if c = '\x7d' then some .endObject
  else if c = ':' then some .nameSeparator
  else if c = ',' then some .valueSeparator
  else none

/-! ## Numbers -/

/-- The number that a run of decimal digits stands for. -/
def natOfDigits (digits : List Char) : Nat :=
  digits.foldl (fun n c => 10 * n + (c.toNat - 48)) 0

/-- The digits that a text starts with, and what follows them. -/
def spanDigits (cs : List Char) : List Char × List Char :=
  (cs.takeWhile Char.isDigit, cs.dropWhile Char.isDigit)

/-- The value of an exponent, its mark included; an empty text is no exponent at all. -/
def exponent? : List Char → Option Int
  | [] => some 0
  | mark :: rest =>
    if mark = 'e' ∨ mark = 'E' then
      match rest with
      | '-' :: digits => (magnitude? digits).map fun n => -n
      | '+' :: digits => magnitude? digits
      | digits => magnitude? digits
    else none
where
  /-- The value of the digits after mark and sign. -/
  magnitude? (digits : List Char) : Option Int :=
    if digits ≠ [] ∧ digits.all Char.isDigit then some (natOfDigits digits) else none

/-- A number without its sign. The whole part has no zero in front of another digit, and a point has
digits on both sides. -/
def unsigned? (negative : Bool) (cs : List Char) : Option Number :=
  let (whole, rest) := spanDigits cs
  if whole = [] ∨ (whole.head? = some '0' ∧ whole ≠ ['0']) then none
  else
    match rest with
    | [] => some (.integer negative (natOfDigits whole))
    | '.' :: more =>
      let (places, rest) := spanDigits more
      if places = [] then none
      else (exponent? rest).map fun e =>
        .decimal negative (natOfDigits (whole ++ places)) (e - places.length)
    | rest => (exponent? rest).map fun e => .decimal negative (natOfDigits whole) e

/-- The number that a whole text is. -/
def number? : List Char → Option Number
  | '-' :: rest => unsigned? true rest
  | rest => unsigned? false rest

/-- The value that a bare word stands for. -/
def word? (word : List Char) : Option Json :=
  if word = ['n', 'u', 'l', 'l'] then some .null
  else if word = ['t', 'r', 'u', 'e'] then some (.bool true)
  else if word = ['f', 'a', 'l', 's', 'e'] then some (.bool false)
  else (number? word).map fun n => if n.inRange then .number n else .unreadable

/-! ## Scanning -/

/-- What has been read of an incomplete token, the characters last first. The characters of a string are
none after half of a surrogate pair that stands alone. -/
inductive Scan where
  | between
  | word (read : List Char)
  | string (read : Option (List Char))
  /-- After a backslash. -/
  | escape (read : Option (List Char))
  /-- Inside the four digits of a code unit; `high` is the first half of a surrogate pair. -/
  | unit (read : Option (List Char)) (high : Option Nat) (value : Nat) (left : Nat)
  /-- After the first half of a surrogate pair. -/
  | half (read : Option (List Char)) (high : Nat)
  /-- After the backslash that follows the first half of a surrogate pair. -/
  | halfEscape (read : Option (List Char)) (high : Nat)

def hexDigit? (c : Char) : Option Nat :=
  if '0' ≤ c ∧ c ≤ '9' then some (c.toNat - 48)
  else if 'a' ≤ c ∧ c ≤ 'f' then some (c.toNat - 87)
  else if 'A' ≤ c ∧ c ≤ 'F' then some (c.toNat - 55)
  else none

/-- The character of an escape of one letter. -/
def escaped? (c : Char) : Option Char :=
  if c = '\x22' ∨ c = '\\' ∨ c = '/' then some c
  else if c = 'b' then some '\x08'
  else if c = 'f' then some '\x0c'
  else if c = 'n' then some '\n'
  else if c = 'r' then some '\r'
  else if c = 't' then some '\t'
  else none

/-- What follows a complete code unit inside a string. A first half waits for its second half. -/
def unitRead (read : Option (List Char)) (high : Option Nat) (unit : Nat) : Scan :=
  match high with
  | none =>
    if 0xD800 ≤ unit ∧ unit < 0xDC00 then .half read unit
    else if 0xDC00 ≤ unit ∧ unit < 0xE000 then .string none
    else .string (read.map (Char.ofNat unit :: ·))
  | some high =>
    if 0xDC00 ≤ unit ∧ unit < 0xE000 then
      .string (read.map (Char.ofNat (0x10000 + (high - 0xD800) * 0x400 + (unit - 0xDC00)) :: ·))
    else .string none

def scanBetween (tokens : List Token) (c : Char) : Option (List Token × Scan) :=
  if isBlank c then some (tokens, .between)
  else if c = '\x22' then some (tokens, .string (some []))
  else
    match punctuation? c with
    | some token => some (token :: tokens, .between)
    | none => some (tokens, .word [c])

/-- Whether a character ends a bare word. -/
def endsWord (c : Char) : Bool :=
  isBlank c || c == '\x22' || (punctuation? c).isSome

def scanString (tokens : List Token) (read : Option (List Char)) (c : Char) :
    Option (List Token × Scan) :=
  if c = '\x22' then
    some (.text (read.map fun read => String.ofList read.reverse) :: tokens, .between)
  else if c = '\\' then some (tokens, .escape read)
  else if c < ' ' then none
  else some (tokens, .string (read.map (c :: ·)))

/-- One character after a backslash inside a string. -/
def scanEscape (tokens : List Token) (read : Option (List Char)) (c : Char) :
    Option (List Token × Scan) :=
  if c = 'u' then some (tokens, .unit read none 0 4)
  else (escaped? c).map fun e => (tokens, .string (read.map (e :: ·)))

/-- One character of a text; the tokens are last first. -/
def scanChar : List Token × Scan → Char → Option (List Token × Scan)
  | (tokens, .between), c => scanBetween tokens c
  | (tokens, .word read), c =>
    if endsWord c then
      (word? read.reverse).bind fun value => scanBetween (.scalar value :: tokens) c
    else some (tokens, .word (c :: read))
  | (tokens, .string read), c => scanString tokens read c
  | (tokens, .escape read), c => scanEscape tokens read c
  | (tokens, .unit read high value left), c =>
    (hexDigit? c).map fun digit =>
      if left ≤ 1 then (tokens, unitRead read high (16 * value + digit))
      else (tokens, .unit read high (16 * value + digit) (left - 1))
  | (tokens, .half read high), c =>
    if c = '\\' then some (tokens, .halfEscape read high) else scanString tokens none c
  | (tokens, .halfEscape read high), c =>
    if c = 'u' then some (tokens, .unit read (some high) 0 4) else scanEscape tokens none c

/-- The tokens of a text that ends here. -/
def scanEnd : List Token × Scan → Option (List Token)
  | (tokens, .between) => some tokens.reverse
  | (tokens, .word read) => (word? read.reverse).map fun value => (Token.scalar value :: tokens).reverse
  | _ => none

def tokens? (cs : List Char) : Option (List Token) :=
  (cs.foldlM scanChar ([], .between)).bind scanEnd

end FrontEnd.Json
