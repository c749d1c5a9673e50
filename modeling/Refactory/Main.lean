import Refactory.CommandLine

/-!
# The program

Reads the file that the arguments name, runs the command and writes what it shows.
-/
namespace Refactory

/-- The code of a system error, which may be given with either sign. -/
def systemErrorCode (code : UInt32) : UInt32 := min code (0 - code)

/-- Why a file cannot be read. -/
def readFailureOf : IO.Error → ReadFailure
  | .noFileOrDirectory _ _ _ => .missing
  | .permissionDenied _ _ _ => .denied
  | .inappropriateType _ code _ =>
    if systemErrorCode code = 21 then .isDirectory else .notDirectory
  | .invalidArgument file code details =>
    if systemErrorCode code = 36 then .tooLong
    else .other (toString (IO.Error.invalidArgument file code details))
  | error => .other (toString error)

/-- The contents of a file, or why they cannot be read. -/
def readContents (path : String) : IO (Except ReadFailure String) := do
  try
    match String.fromUTF8? (← IO.FS.readBinFile path) with
    | some contents => return .ok contents
    | none => return .error .notText
  catch error =>
    return .error (readFailureOf error)

/-- Runs the program and gives the code with which it ends. -/
def runProgram (arguments : List String) : IO UInt32 := do
  let request := Request.ofArguments arguments
  let contents ← match request.path? with
    | some path => readContents path
    | none => pure (.ok "")
  let shown := request.run contents
  (← IO.getStdout).putStr shown.output
  (← IO.getStderr).putStr shown.errors
  return shown.code.toUInt32

end Refactory

/-- The entry point of the program. -/
def main (arguments : List String) : IO UInt32 := Refactory.runProgram arguments
