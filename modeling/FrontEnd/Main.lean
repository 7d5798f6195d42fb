import FrontEnd.CommandLine.Run

/-! # The program

Reads the files that the arguments name, runs the command on them and writes what comes out.
-/

namespace FrontEnd

/-- The number of an error of the system, which may come with either sign. -/
def systemCode (code : UInt32) : UInt32 := min code (0 - code)

/-- The error of the system as a reason why a file cannot be read. -/
def ReadError.ofSystem : IO.Error → ReadError
  | .noFileOrDirectory .. => .notFound
  | .inappropriateType _ code _ => if systemCode code = 20 then .notFolder else .isFolder
  | .invalidArgument _ code details =>
    if systemCode code = 36 then .nameTooLong else .other details
  | e => .other (toString e)

/-- The bytes of a file of the system. -/
def readBytes (name : String) : IO (Except ReadError ByteArray) := do
  try
    return .ok (← IO.FS.readBinFile name)
  catch e => return .error (.ofSystem e)

/-- The files of the system under some names. -/
def readAll (names : List String) : IO Files := do
  let found ← names.mapM fun name => do return (name, ← readBytes name)
  return fun name => (found.lookup name).getD (.error .notFound)

end FrontEnd

def main (args : List String) : IO UInt32 := do
  let names := ((FrontEnd.Request.ofArgs? args).map (·.files)).getD []
  let files ← FrontEnd.readAll names
  let outcome := FrontEnd.runProgram files args
  (← IO.getStdout).putStr outcome.stdout
  (← IO.getStderr).putStr outcome.stderr
  return outcome.code.toUInt32
