/-! # Control sequences

A text that is written to a file instead of a terminal is written without what would steer a terminal: the
control characters, those aside that part words and lines, and the sequences that begin with an escape
character, up to their ends.
-/

namespace FrontEnd.Text

/-- Whether a control character parts words or lines. -/
def isBreak (c : Char) : Bool :=
  c == '\t' || c == '\n' || c == '\x0c' || c == '\r'

/-- Whether a character is written when it stands outside of every sequence. -/
def isWritten (c : Char) : Bool :=
  isBreak c || (' ' ≤ c && c != '\x7f')

/-- Where in a control sequence a text is. -/
inductive Sequence where
  /-- Outside of every sequence. -/
  | outside
  /-- After an escape character. -/
  | escape
  /-- In an escape sequence of several characters. -/
  | escapeTail
  /-- In a control sequence, which goes on up to a letter. -/
  | control
  /-- At the start of a device control string. -/
  | deviceStart
  /-- Among the parameters of a device control string. -/
  | deviceParameters
  /-- In what stands between these parameters and the string. -/
  | deviceTail
  /-- In a string, of a device or of an application. -/
  | string
  /-- In a command to the system, which goes on up to a bell. -/
  | command
  deriving DecidableEq

namespace Sequence

/-- The byte that ends a string. It ends one also as a part of another character. -/
def stringEnd : UInt8 := 0x9c

/-- Where a text is after one more character. A sequence is given up at a cancel, a substitute or another
escape character. -/
def next (s : Sequence) (c : Char) : Sequence :=
  if c = '\x18' ∨ c = '\x1a' then .outside
  else if c = '\x1b' then .escape
  else
    match s with
    | .outside => .outside
    | .escape =>
      if ' ' ≤ c ∧ c ≤ '/' then .escapeTail
      else if c = '[' then .control
      else if c = 'P' then .deviceStart
      else if c = ']' then .command
      else if c = 'X' ∨ c = '^' ∨ c = '_' then .string
      else if '0' ≤ c ∧ c ≤ '~' then .outside
      else .escape
    | .escapeTail => if '0' ≤ c ∧ c ≤ '~' then .outside else .escapeTail
    | .control => if '@' ≤ c ∧ c ≤ '~' then .outside else .control
    | .deviceStart =>
      if ' ' ≤ c ∧ c ≤ '/' then .deviceTail
      else if '0' ≤ c ∧ c ≤ '?' then .deviceParameters
      else if '@' ≤ c ∧ c ≤ '~' then .string
      else .deviceStart
    | .deviceParameters =>
      if ' ' ≤ c ∧ c ≤ '/' then .deviceTail
      else if '<' ≤ c ∧ c ≤ '~' then .string
      else .deviceParameters
    | .deviceTail => if '0' ≤ c ∧ c ≤ '~' then .string else .deviceTail
    | .string => if stringEnd ∈ String.utf8EncodeChar c then .outside else .string
    | .command => if c = '\x07' then .outside else .command

/-- Whether a character is written. Inside a sequence of letters the breaks still are. -/
def writes (s : Sequence) (c : Char) : Bool :=
  match s with
  | .outside => isWritten c
  | .escape => isBreak c
  | .escapeTail => isBreak c
  | .control => isBreak c
  | _ => false

end Sequence

/-- How far a text has been written. -/
structure Writer where
  sequence : Sequence := .outside
  /-- Whether the last character has been written. -/
  writing : Bool := true

namespace Writer

/-- Whether one more character is written. What follows a written character is written too, up to the next
control character, and even if the written one was a break inside a sequence. -/
def writes (w : Writer) (c : Char) : Bool :=
  (w.writing && isWritten c) || w.sequence.writes c

/-- The writer after one more character. Such a break leaves its sequence open; a character beyond ASCII
that is written closes it. -/
def next (w : Writer) (c : Char) : Writer where
  sequence :=
    if w.writing && isWritten c then if c < '\x80' then w.sequence else .outside
    else w.sequence.next c
  writing := w.writes c

end Writer

/-- What is written of a text. -/
def written (w : Writer) : List Char → List Char
  | [] => []
  | c :: rest => if w.writes c then c :: written (w.next c) rest else written (w.next c) rest

/-- A text without its control sequences. -/
def withoutControls (text : String) : String :=
  String.ofList (written {} text.toList)

end FrontEnd.Text
