import FrontEnd.Diagnostic.Basic
import FrontEnd.Text.Lines

/-! # Diagnostics as text

The first line of a diagnostic is its level word and its message. Under it come the location, the note and
the help, each behind a word that ends in the column in which the level word ends. Colours are escape
sequences around the words; they change nothing else.
-/

namespace FrontEnd

/-- How a word is painted. -/
inductive Style where
  | bold
  | boldRed
  | boldYellow
  deriving DecidableEq

namespace Style

/-- The numbers between the start of an escape sequence and its end. -/
def code : Style → String
  | .bold => "1"
  | .boldRed => "1;91"
  | .boldYellow => "1;93"

/-- A word in a style, if there are colours. -/
def paint (style : Style) (colored : Bool) (word : String) : String :=
  if colored then "\x1b[" ++ style.code ++ "m" ++ word ++ "\x1b[0m" else word

@[simp] theorem paint_false (style : Style) (word : String) : style.paint false word = word := rfl

end Style

namespace Level

/-- The name of the colour of a level. -/
def color : Level → String
  | .warning => "BrightYellow"
  | .error => "BrightRed"

/-- The style of the words of a level. -/
def style : Level → Style
  | .warning => .boldYellow
  | .error => .boldRed

end Level

/-- A location under a diagnostic, behind an arrow in the style of the level. -/
def Location.render (colored : Bool) (level : Level) (l : Location) : String :=
  level.style.paint colored "-->" ++ " " ++ l.text ++ "\n"

namespace Diagnostic

/-- The width of the words in front of the parts of a diagnostic. -/
def width (d : Diagnostic) : Nat := d.level.word.length

/-- The line of the level word and the message. -/
def renderMessage (colored : Bool) (d : Diagnostic) : String :=
  d.level.style.paint colored d.level.word ++ ": " ++ d.message ++ "\n"

/-- The lines of the location, two columns behind the end of the level word. -/
def renderLocation (colored : Bool) (d : Diagnostic) : String :=
  match d.location with
  | none => ""
  | some location =>
    String.join ((Text.linesOf (location.render colored d.level)).map fun line =>
      Text.blanks (d.width + 2) ++ line ++ "\n")

/-- The lines of the note; all of them start in one column. -/
def renderNote (colored : Bool) (d : Diagnostic) : String :=
  match d.note with
  | none => ""
  | some note =>
    Style.bold.paint colored (Text.padLeft d.width "Note") ++ ": " ++
      match Text.linesOf note with
      | [] => ""
      | line :: more =>
        line ++ "\n" ++ String.join (more.map fun line => Text.blanks (d.width + 2) ++ line ++ "\n")

def renderHelp (colored : Bool) (d : Diagnostic) : String :=
  match d.help with
  | none => ""
  | some help => Style.bold.paint colored (Text.padLeft d.width "Help") ++ ": " ++ help ++ "\n"

def render (colored : Bool) (d : Diagnostic) : String :=
  d.renderMessage colored ++ d.renderLocation colored ++ d.renderNote colored ++ d.renderHelp colored

end Diagnostic

end FrontEnd
