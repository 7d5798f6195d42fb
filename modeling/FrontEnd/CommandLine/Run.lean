import FrontEnd.CommandLine.Folder
import FrontEnd.CommandLine.Request
import FrontEnd.Data.Constant
import FrontEnd.Diagnostic.Rendering
import FrontEnd.Json.Printer
import FrontEnd.Lowering.Module
import FrontEnd.Text.Controls

/-! # Runs of the program

A run goes through its files in order and leaves outputs behind, in the order in which they come about: lines,
diagnostics and records. It ends after the last file, or at the first failure that stops it. Verbosity and
colours only decide how the outputs are written, not what they are.
-/

namespace FrontEnd

/-- Something that a run leaves behind. -/
inductive Output where
  /-- A record of the log. -/
  | event (event : Event)
  /-- A text on the standard output, with a line feed behind it. -/
  | line (text : String)
  /-- A diagnostic on the standard error output. -/
  | diagnostic (diagnostic : Diagnostic)
  deriving DecidableEq

/-- Why a run stops. -/
inductive Failure where
  | unreadable (file : String) (cause : ReadError)
  | invalidTree (file : String)
  | checkFailed (failed total : Nat)
  | notModule (file kind : String)
  | notData (file kind : String)
  | cannotLower (file : String) (cause : LoweringError)
  | invalidData (file : String) (cause : LoweringError)
  deriving DecidableEq

namespace Failure

/-- The failure as it is told to the user. -/
def message : Failure → String
  | .unreadable file _ => "Cannot read " ++ file
  | .invalidTree file => "Invalid syntax tree in " ++ file
  | .checkFailed failed total => failed.repr ++ " of " ++ total.repr ++ " files failed the check"
  | .notModule file kind => file ++ " is a " ++ kind ++ ", not a module"
  | .notData file kind => file ++ " is a " ++ kind ++ ", not a data file"
  | .cannotLower file _ => "Cannot lower " ++ file
  | .invalidData file _ => "Invalid data in " ++ file

/-- The cause of a failure. What a text that is no syntax tree lacks is not told. -/
def cause? : Failure → Option String
  | .unreadable _ cause => some cause.message
  | .invalidTree _ => some "<json error>"
  | .cannotLower _ cause => some cause.message
  | .invalidData _ cause => some cause.message
  | _ => none

end Failure

/-- The outputs of a run, and its result. -/
structure Run (α : Type) where
  outputs : List Output
  result : Except Failure α

namespace Run

variable {α β : Type}

/-- A run that goes on after another one, unless that one has failed. -/
def andThen (r : Run α) (next : α → Run β) : Run β :=
  match r.result with
  | .ok a => { outputs := r.outputs ++ (next a).outputs, result := (next a).result }
  | .error e => { outputs := r.outputs, result := .error e }

end Run

/-! ## Commands -/

def logged (log : List Event) : List Output := log.map .event

/-- The outputs of an error: its diagnostic, and before it what is recorded while it is made. -/
def reported (e : LoweringError) : List Output :=
  logged e.diagnosticLog ++ [.diagnostic e.diagnostic]

/-- Reads the syntax tree of a file. -/
def load (files : Files) (file : String) : Run SourceTree :=
  match files.text file with
  | .error cause => { outputs := [], result := .error (.unreadable file cause) }
  | .ok text =>
    match SourceTree.read? text with
    | some tree => { outputs := [.event (.loaded file)], result := .ok tree }
    | none => { outputs := [], result := .error (.invalidTree file) }

/-- The outputs of a check of a file: the word for a module that passes, or a diagnostic. -/
def checkOutputs (file : String) (run : CheckRun) : List Output :=
  logged run.log ++
    match run.result with
    | .ok () => [.line (file ++ ": " ++ passWord)]
    | .error e => reported e

/-- The diagnostics found so far, and that of a check that has failed. -/
def CheckRun.addTo (run : CheckRun) (found : DiagnosticList) : DiagnosticList :=
  match run.result with
  | .ok () => found
  | .error e => found.add e.diagnostic

/-- Checks files one after the other, and adds the diagnostics of those that fail to the ones found so far. -/
def checkFiles (files : Files) (ids : IdSource) (found : DiagnosticList) :
    List String → Run DiagnosticList
  | [] => { outputs := [], result := .ok found }
  | file :: rest =>
    (load files file).andThen fun tree =>
      let run := tree.check file ids
      let more := checkFiles files run.ids (run.addTo found) rest
      { more with outputs := checkOutputs file run ++ more.outputs }

/-- Checks all files, and fails in the end if an error has been found. -/
def runCheck (files : Files) (names : List String) : Run Unit :=
  (checkFiles files {} {} names).andThen fun found =>
    { outputs := []
      result :=
        if found.hasErrors then .error (.checkFailed found.diagnostics.length names.length)
        else .ok () }

/-- Lowers files one after the other, and writes what they give. -/
def lowerFiles (files : Files) (ids : IdSource) : List String → Run Unit
  | [] => { outputs := [], result := .ok () }
  | file :: rest =>
    (load files file).andThen fun tree =>
      match tree with
      | .configuration c =>
        { outputs := [], result := .error (.notModule file (SourceTree.configuration c).kind) }
      | .module m =>
        let run := m.lower file ids
        match run.module with
        | .error e =>
          { outputs := logged run.log ++ reported e, result := .error (.cannotLower file e) }
        | .ok lowered =>
          let more := lowerFiles files run.ids rest
          { more with outputs := logged run.log ++ .line lowered.toJson.pretty :: more.outputs }

/-- Lowers all files; no two declarations of a run have the same identifier. -/
def runLower (files : Files) (names : List String) : Run Unit :=
  lowerFiles files {} names

/-- Writes the constants of some assignments of a file. -/
def writeConstants (file : String) : List Assignment → Run Unit
  | [] => { outputs := [], result := .ok () }
  | a :: rest =>
    match a.constant with
    | ⟨log, .error e⟩ => { outputs := logged log ++ reported e, result := .error (.invalidData file e) }
    | ⟨log, .ok constant⟩ =>
      let more := writeConstants file rest
      { more with outputs := logged log ++ .line constant.line :: more.outputs }

/-- Writes the constants of data files one after the other. -/
def runData (files : Files) : List String → Run Unit
  | [] => { outputs := [], result := .ok () }
  | file :: rest =>
    (load files file).andThen fun tree =>
      match tree with
      | .module m => { outputs := [], result := .error (.notData file (SourceTree.module m).kind) }
      | .configuration c =>
        (writeConstants file c.assignments).andThen fun _ => runData files rest

def Request.run (r : Request) (files : Files) : Run Unit :=
  match r.command with
  | .check => runCheck files r.files
  | .lower => runLower files r.files
  | .data => runData files r.files

/-! ## Outputs as text -/

/-- The least rank of the records that are shown. -/
def shownFrom (verbosity : Nat) : Nat :=
  match verbosity with
  | 0 => 4
  | 1 => LogLevel.info.rank
  | 2 => LogLevel.debug.rank
  | _ => LogLevel.trace.rank

/-- A message that goes over several lines, each but the first indented. -/
def indented (message : String) : String :=
  String.ofList (message.toList.flatMap fun c => if c = '\n' then ['\n', ' ', ' ', ' ', ' '] else [c])

/-- A record as a line of the log. The log is no terminal. -/
def Event.line (e : Event) : String :=
  Text.withoutControls
    ("[" ++ Text.padRight 5 e.level.name ++ " " ++ e.topic ++ "] " ++ indented e.message ++ "\n")

namespace Output

/-- What an output puts on the standard output. -/
def stdout : Output → String
  | .line text => text ++ "\n"
  | _ => ""

/-- What an output puts on the standard error output. -/
def stderr (verbosity : Nat) (colored : Bool) : Output → String
  | .event e => if shownFrom verbosity ≤ e.level.rank then e.line else ""
  | .diagnostic d => d.render colored
  | .line _ => ""

end Output

/-- A failure at the end of the standard error output. -/
def Failure.render (colored : Bool) (f : Failure) : String :=
  Style.boldRed.paint colored "Error:" ++ " " ++ f.message ++ "\n" ++
    match f.cause? with
    | some cause => "\nCaused by:\n    " ++ cause ++ "\n"
    | none => ""

/-- What is left of a run of the program when it is over. -/
structure Outcome where
  code : Nat
  stdout : String
  stderr : String
  deriving DecidableEq

def usage : String :=
  "usage: [-v]... [--color auto|always|never] check|ir|data FILE...\n"

/-- The outcome of a request. Nothing is written to a terminal, so colours have to be asked for. -/
def Request.outcome (r : Request) (files : Files) : Outcome :=
  let run := r.run files
  let colored := r.color = .always
  let stdout := String.join (run.outputs.map Output.stdout)
  let stderr := String.join (run.outputs.map (Output.stderr r.verbosity colored))
  match run.result with
  | .ok () => { code := 0, stdout, stderr }
  | .error failure => { code := 1, stdout, stderr := stderr ++ failure.render colored }

/-- The outcome of the program for its arguments. -/
def runProgram (files : Files) (args : List String) : Outcome :=
  match Request.ofArgs? args with
  | some r => r.outcome files
  | none => { code := 2, stdout := "", stderr := usage }

end FrontEnd
