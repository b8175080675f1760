import TreeScript.CommandLine.Log
import TreeScript.Dump
import TreeScript.Evaluation
import TreeScript.Loading

/-!
# Invocations

`invoke` carries out what the arguments ask for in a directory. The exit code
tells a document that holds no tree (65) and a program that fails (70) from all
other trouble (1, or 2 for the arguments themselves).

`Subcommand.perform` is the part that does not depend on where files come from:
it is given the content of the file, or the reason why it cannot be read.
-/

namespace TreeScript

/-- What is left when a command is over. -/
structure Finish where
  code : Nat
  stdout : ByteArray
  stderr : String
  log : List LogLine

/-- The report on a failure that has a cause with a text of its own. -/
def failureReport (failure : String) (causes : List String) : String :=
  s!"Error: {failure}\n\nCaused by:\n{String.join causes}"

/-- The report on a file that cannot be read. -/
def unreadableReport (path : String) (fault : FileFault) : String :=
  failureReport s!"Failed to load {Text.quoted path}"
    [s!"    0: {(LoadError.unreadable fault).message}\n", s!"    1: {fault.message}\n"]

/-- The report on a log file that cannot be made. -/
def noLogReport (fault : FileFault) : String :=
  failureReport s!"Failed to create {logName}" [s!"    {fault.message}\n"]

/-- Lines for the records of a journal. -/
def Journal.lines (j : Journal) : List LogLine :=
  j.records.map .record

/-- Runs a tree for a subcommand that runs it, after the lines that are in the
log already. -/
def Subcommand.runTree (laps : Nat) (subcommand : Subcommand) (root : Node) (journal : Journal)
    (log : List LogLine) : Option Finish :=
  match root.runProgram laps ⟨.initial, .unlimited, journal⟩ with
  | none => none
  | some (.error e, m) =>
    some ⟨70, m.sink.written, e.report ++ "\n", log ++ m.journal.lines ++ [.runFailed e]⟩
  | some (.ok value, m) =>
    let log := log ++ m.journal.lines ++ [.runSucceeded]
    match subcommand with
    | .evaluate =>
      some ⟨0, m.sink.written ++ (value.text ++ "\n").toUTF8, "", log ++ [.evaluated value]⟩
    | _ => some ⟨0, m.sink.written, "", log⟩

/-- Carries a subcommand out on a file, of which the content is given as far as
it can be read. -/
def Subcommand.perform (laps : Nat) (subcommand : Subcommand) (path : String)
    (content : Except FileFault ByteArray) (journal : Journal) : Option Finish :=
  match loadFile path content journal with
  | (.error (.unreadable fault), journal) =>
    some ⟨1, .empty, unreadableReport path fault, journal.lines⟩
  | (.error (.malformed e), journal) =>
    some ⟨65, .empty, (LoadError.malformed e).message ++ "\n",
      journal.lines ++ [.decodingFailed e]⟩
  | (.ok root, journal) =>
    let log := journal.lines ++ [.decoded root.kind]
    match subcommand with
    | .dump => some ⟨0, (root.dump ++ "\n").toUTF8, "", log ++ [.dumped root.dump]⟩
    | _ => subcommand.runTree laps root journal.cleared log

/-- What a command says when it has no file to work on. -/
def noPathText : String :=
  "No input filepath was provided. Exiting...\n"

def versionText : String :=
  "narlang 0.1.0\n"

/-- Stands in for the help of the command and of its subcommands, and for what is said of
arguments that make no sense. The parser of the command line words these texts, and no part of
this library reads them. -/
def usageText : String :=
  "Usage: narlang [--log] <run|evaluate|dump> [FILENAME]\n"

/-- The lines that stand in the log before the file is opened. -/
def openingLines (subcommand : Subcommand) (path : Option String) : List LogLine :=
  [.initialized, .arguments subcommand path] ++
    match path with
    | some _ => [.running subcommand]
    | none => [.noPath subcommand]

/-- How a command line ended, and the directory it left. -/
structure Ending where
  code : Nat
  stdout : ByteArray
  stderr : String
  directory : Directory

/-- Carries out a subcommand in a directory without a log. -/
def invokeQuietly (laps : Nat) (d : Directory) (subcommand : Subcommand) :
    Option String → Option Ending
  | none => some ⟨0, noPathText.toUTF8, "", d⟩
  | some path =>
    match subcommand.perform laps path (d.read path) .off with
    | none => none
    | some finish => some ⟨finish.code, finish.stdout, finish.stderr, d⟩

/-- Carries out a subcommand in a directory with a log. The log file is there
before the tree is read, with all lines up to that point. -/
def invokeLogged (laps : Nat) (d : Directory) (subcommand : Subcommand) (path : Option String) :
    Option Ending :=
  match d.create logName with
  | .error fault => some ⟨1, .empty, noLogReport fault, d⟩
  | .ok d =>
    let opening := openingLines subcommand path
    match path with
    | none => some ⟨0, noPathText.toUTF8, "", d.put logName (logContent opening)⟩
    | some path =>
      let soFar := opening ++ [.record (.readingFile path)]
      let content := (d.put logName (logContent soFar)).read path
      match subcommand.perform laps path content .fresh with
      | none => none
      | some finish =>
        some ⟨finish.code, finish.stdout, finish.stderr,
          d.put logName (logContent (opening ++ finish.log))⟩

/-- Carries out what the arguments ask for in a directory. -/
def invoke (laps : Nat) (args : List String) (d : Directory) : Option Ending :=
  match Request.parse? args with
  | none => some ⟨2, .empty, usageText, d⟩
  | some .help => some ⟨0, usageText.toUTF8, "", d⟩
  | some .version => some ⟨0, versionText.toUTF8, "", d⟩
  | some (.command subcommand path false) => invokeQuietly laps d subcommand path
  | some (.command subcommand path true) => invokeLogged laps d subcommand path

end TreeScript
