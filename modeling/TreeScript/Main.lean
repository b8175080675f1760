import TreeScript.CommandLine.Invocation

/-!
# The program

`main` connects `TreeScript.Request` and `TreeScript.Subcommand` to the files and
streams of the system.
-/

namespace TreeScript

/-- The number of an error of the system. Some calls report it as a negative one. -/
def errorNumber (code : UInt32) : UInt32 :=
  if code < 0x80000000 then code else 0 - code

/-- The fault behind an error of the system. -/
def FileFault.ofError : IO.Error → FileFault
  | .noFileOrDirectory .. => .notFound
  | .inappropriateType _ code _ => if errorNumber code = 20 then .notDirectory else .isDirectory
  | .invalidArgument _ code _ => if errorNumber code = 36 then .nameTooLong else .holdsNul
  | _ => .isDirectory

/-- Reads a file as far as the system allows. -/
def readFile (path : String) : IO (Except FileFault ByteArray) := do
  try
    return .ok (← IO.FS.readBinFile path)
  catch e =>
    return .error (FileFault.ofError e)

/-- More laps than any loop can take. -/
def unboundedLaps : Nat :=
  Nat.pow 2 62

/-- Carries out a subcommand, with the given writer for the lines of the log. -/
def runCommand (subcommand : Subcommand) (path : Option String) (journal : Journal)
    (writeLog : List LogLine → IO Unit) : IO UInt32 := do
  let opening := openingLines subcommand path
  writeLog opening
  match path with
  | none =>
    IO.print noPathText
    return 0
  | some path =>
    let content ← readFile path
    match subcommand.perform unboundedLaps path content journal with
    | none => return 1
    | some finish =>
      (← IO.getStdout).write finish.stdout
      IO.eprint finish.stderr
      writeLog (opening ++ finish.log)
      return finish.code.toUInt32

end TreeScript

open TreeScript in
def main (args : List String) : IO UInt32 := do
  match Request.parse? args with
  | none =>
    IO.eprint usageText
    return 2
  | some .help =>
    IO.print usageText
    return 0
  | some .version =>
    IO.print versionText
    return 0
  | some (.command subcommand path false) =>
    runCommand subcommand path .off fun _ => pure ()
  | some (.command subcommand path true) =>
    try
      IO.FS.writeFile logName ""
    catch e =>
      IO.eprint (noLogReport (FileFault.ofError e))
      return 1
    runCommand subcommand path .fresh fun lines => IO.FS.writeBinFile logName (logContent lines)
