import TreeScript.CommandLine.Request
import TreeScript.Document.Message
import TreeScript.Journal

/-!
# The log file

With `--log` a command leaves an account of its work in the file `app.log`. Its
lines are the records of the journal and the steps of the command itself. Each
shows the part of the interpreter that it comes from, a number for its kind, and
its message.
-/

namespace TreeScript

/-- A line of the log: a record from loading or running the tree, or a step of
the command itself. -/
inductive LogLine where
  | record (r : Record)
  | initialized
  | arguments (subcommand : Subcommand) (path : Option String)
  | noPath (subcommand : Subcommand)
  | running (subcommand : Subcommand)
  | decoded (root : Node.Kind)
  | decodingFailed (error : Document.Error)
  | runSucceeded
  | runFailed (error : RuntimeError)
  | evaluated (value : Value)
  | dumped (text : String)
  deriving DecidableEq

/-- The name of the log file. -/
def logName : String :=
  "app.log"

/-- Each kind of record has a number. The operands of arithmetic and of comparisons are kinds of
their own, as are the shortcuts of both connectives. -/
def Record.number : Record → Nat
  | .readingFile _ => 29
  | .fileRead .. => 36
  | .decoding _ => 22
  | .scopePushed _ => 38
  | .scopePopped _ => 46
  | .errorCreated _ => 67
  | .programStarted _ => 68
  | .programFinished _ => 73
  | .programAborted _ => 74
  | .nodeEntered _ => 108
  | .nodeLeft .. => 189
  | .printed _ => 116
  | .conditionTrue => 130
  | .conditionFalse => 133
  | .loopExited _ => 146
  | .blockEntered _ => 151
  | .declared _ => 163
  | .assigned .. => 174
  | .operation _ => 217
  | .shortCircuit .and => 223
  | .shortCircuit .or => 232
  | .zeroDivisor _ => 257
  | .operands (.comparison _) .. => 302
  | .operands .. => 286

namespace LogLine

/-- The number of a kind of line. -/
def number : LogLine → Nat
  | .record r => r.number
  | .initialized => 101
  | .arguments .. => 123
  | .noPath _ => 106
  | .running .run => 128
  | .running .evaluate => 138
  | .running .dump => 151
  | .decoded _ => 45
  | .decodingFailed _ => 50
  | .runSucceeded => 65
  | .runFailed _ => 70
  | .evaluated _ => 142
  | .dumped _ => 155

/-- The part of the interpreter that a line comes from. -/
def part : LogLine → String
  | .record r => r.origin.part?.getD "narlang"
  | _ => "narlang"

def message : LogLine → String
  | .record r => r.message
  | .initialized => s!"Logger initialized, writing to {logName}"
  | .arguments subcommand path =>
    let operand := match path with
      | some path => "Some(" ++ Text.quoted path ++ ")"
      | none => "None"
    "CLI arguments: Cli \x7b commands: " ++ subcommand.title ++ " \x7b filename: " ++ operand ++
      " \x7d, log: true \x7d"
  | .noPath subcommand => s!"No filepath provided for {subcommand.title}"
  | .running subcommand => s!"Running {subcommand.title} subcommand"
  | .decoded root => s!"Decoded tree rooted at {root.name}"
  | .decodingFailed error => s!"Decode debug: {error.message}"
  | .runSucceeded => "Program executed successfully"
  | .runFailed error => s!"Runtime debug: {error.report}"
  | .evaluated value => s!"Evaluated to: {value.text}"
  | .dumped text => s!"AST: {text}"

/-- A line as it stands in the log file. -/
def text (line : LogLine) : String :=
  s!"[{line.part}:{line.number}] - {line.message}\n"

end LogLine

/-- The content of the log file. -/
def logContent (lines : List LogLine) : ByteArray :=
  (String.join (lines.map LogLine.text)).toUTF8

end TreeScript
