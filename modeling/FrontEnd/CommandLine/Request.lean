/-! # Requests

What the arguments of the program ask for: a command, the files that it is for, how much is recorded and
whether there are colours. Options come before the command and files after it. Behind `--` every argument
is a file.
-/

namespace FrontEnd

/-- What is done with the files. -/
inductive Command where
  /-- Check source modules. -/
  | check
  /-- Write the lowered form of source modules. -/
  | lower
  /-- Write the constants of data files. -/
  | data
  deriving DecidableEq

/-- When diagnostics are coloured. -/
inductive ColorChoice where
  /-- When they are written to a terminal. -/
  | auto
  | always
  | never
  deriving DecidableEq

def Command.ofWord? (word : String) : Option Command :=
  if word = "check" then some .check
  else if word = "ir" then some .lower
  else if word = "data" then some .data
  else none

def ColorChoice.ofWord? (word : String) : Option ColorChoice :=
  if word = "auto" then some .auto
  else if word = "always" then some .always
  else if word = "never" then some .never
  else none

/-- What the program is asked for. -/
structure Request where
  verbosity : Nat
  color : ColorChoice
  command : Command
  files : List String
  deriving DecidableEq

/-- The options that have been read. -/
structure Options where
  verbosity : Nat := 0
  color : Option ColorChoice := none
  deriving DecidableEq

/-- How often an argument asks for more records: once for each letter. -/
def verboseCount? (arg : String) : Option Nat :=
  if arg = "--verbose" then some 1
  else
    match arg.toList with
    | '-' :: letters =>
      if letters ≠ [] ∧ letters.all (· == 'v') then some letters.length else none
    | _ => none

/-- The word behind the equals sign of an argument that chooses colours. -/
def colorWord? (arg : String) : Option String :=
  ("--color=".toList.isPrefixOf? arg.toList).map String.ofList

namespace Options

/-- The options with a choice of colours. It is made once at most, and by a word that names a choice. -/
def chooseColor? (o : Options) (word : String) : Option Options :=
  match o.color with
  | some _ => none
  | none => (ColorChoice.ofWord? word).map fun color => { o with color := some color }

end Options

/-- The files of a command. A file has a name, and one that starts like an option stands behind `--`, but a
lone dash is a name. -/
def readFiles? (literal : Bool) : List String → Option (List String)
  | [] => some []
  | arg :: rest =>
    if arg.isEmpty then none
    else if literal then (readFiles? true rest).map (arg :: ·)
    else if arg = "--" then readFiles? true rest
    else if arg ≠ "-" ∧ arg.toList.head? = some '-' then none
    else (readFiles? false rest).map (arg :: ·)

namespace Request

/-- The request of a command with its files, of which there is at least one. -/
def ofFiles? (o : Options) (command : Command) (args : List String) : Option Request :=
  match readFiles? false args with
  | some (file :: files) =>
    some {
      verbosity := o.verbosity
      color := o.color.getD .auto
      command
      files := file :: files }
  | _ => none

/-- The request of some arguments after the options that have been read. -/
def readOptions? (o : Options) : List String → Option Request
  | [] => none
  | [_] => none
  | arg :: next :: rest =>
    if arg = "--color" then
      (o.chooseColor? next).bind fun o => readOptions? o rest
    else
      match verboseCount? arg, colorWord? arg with
      | some count, _ => readOptions? { o with verbosity := o.verbosity + count } (next :: rest)
      | none, some word => (o.chooseColor? word).bind fun o => readOptions? o (next :: rest)
      | none, none => (Command.ofWord? arg).bind fun command => ofFiles? o command (next :: rest)

/-- The request of the arguments of the program. -/
def ofArgs? (args : List String) : Option Request := readOptions? {} args

end Request

end FrontEnd
