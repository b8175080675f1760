import TreeScript.RuntimeError
import TreeScript.Text.Quoted

/-!
# The journal

Whatever loads or runs a tree can leave records of what it does. A `Record` is
data; its wording, level and origin are functions of it. A `Journal` collects
records, or is off and drops them, and nothing ever reads it back.
-/

namespace TreeScript

/-- Something that happened while a tree was loaded or run. -/
inductive Record where
  | readingFile (path : String)
  | fileRead (bytes : Nat) (path : String)
  | decoding (bytes : Nat)
  | scopePushed (depth : Nat)
  | scopePopped (depth : Nat)
  | errorCreated (error : RuntimeError)
  | programStarted (root : Node.Kind)
  | programFinished (value : Value)
  | programAborted (error : RuntimeError)
  | nodeEntered (kind : Node.Kind)
  | nodeLeft (kind : Node.Kind) (value : Value)
  | printed (value : Value)
  | conditionTrue
  | conditionFalse
  | loopExited (iterations : Nat)
  | blockEntered (nodes : Nat)
  | declared (name : String)
  | assigned (value : Value) (name : String)
  | operation (op : Operator)
  | shortCircuit (op : Connective)
  | operands (op : Operator) (left right : Value)
  | zeroDivisor (dividend : Float)
  deriving DecidableEq

inductive Level where
  | info
  | debug
  deriving DecidableEq, Repr

def Level.name : Level → String
  | .info => "INFO"
  | .debug => "DEBUG"

/-- The part of the interpreter that a record comes from. -/
inductive Origin where
  | loading
  | evaluation
  | scopes
  | errors
  deriving DecidableEq, Repr

/-- The name of an origin below the interpreter's own name. -/
def Origin.part? : Origin → Option String
  | .loading => none
  | .evaluation => some "interpreter"
  | .scopes => some "environment"
  | .errors => some "error"

/-- The name of an origin in full. -/
def Origin.path (origin : Origin) : String :=
  match origin.part? with
  | none => "narlang"
  | some part => "narlang::" ++ part

namespace Record

def level : Record → Level
  | .readingFile _ => .info
  | .fileRead .. => .info
  | .errorCreated _ => .info
  | .programStarted _ => .info
  | .programFinished _ => .info
  | .programAborted _ => .info
  | _ => .debug

def origin : Record → Origin
  | .readingFile _ => .loading
  | .fileRead .. => .loading
  | .decoding _ => .loading
  | .scopePushed _ => .scopes
  | .scopePopped _ => .scopes
  | .errorCreated _ => .errors
  | _ => .evaluation

/-- The wording of a record. -/
def message : Record → String
  | .readingFile path => s!"Reading file: {Text.quoted path}"
  | .fileRead bytes path => s!"Read {bytes} bytes from {Text.quoted path}"
  | .decoding bytes => s!"Decoding syntax tree from {bytes} bytes"
  | .scopePushed depth => s!"Pushed scope, depth {depth}"
  | .scopePopped depth => s!"Popped scope, depth {depth}"
  | .errorCreated error => s!"Creating {error.kind.name} error: {error.message}"
  | .programStarted root => s!"Running program rooted at {root.name}"
  | .programFinished value => s!"Program finished with value: {value.text}"
  | .programAborted error => s!"Program aborted: {error.report}"
  | .nodeEntered kind => s!"Evaluating {kind.name} node"
  | .nodeLeft kind value => s!"{kind.name} node evaluated to: {value.text}"
  | .printed value => s!"Printed value: {value.text}"
  | .conditionTrue => "Condition is true; executing body"
  | .conditionFalse => "Condition is false; executing else branch"
  | .loopExited iterations => s!"Exited while loop after {iterations} iteration(s)"
  | .blockEntered nodes => s!"Entering block with {nodes} node(s)"
  | .declared name => s!"Declared variable '{name}'"
  | .assigned value name => s!"Assigned value {value.text} to '{name}'"
  | .operation op => s!"Evaluating binary operation: {op.symbol}"
  | .shortCircuit op => s!"Short-circuiting '{(Operator.connective op).symbol}'"
  | .operands _ left right => s!"Left operand: {left.text}, Right operand: {right.text}"
  | .zeroDivisor dividend =>
    s!"Error: division of {Number.Style.plain.text dividend} by zero"

/-- A record as one line of a trace. -/
def line (r : Record) : String :=
  s!"{r.level.name} {r.origin.path}: {r.message}"

end Record

/-- The records so far, the newest first, or `none` if they are not kept. -/
structure Journal where
  newestFirst : Option (List Record)

namespace Journal

/-- A journal that keeps nothing. -/
def off : Journal :=
  ⟨none⟩

/-- A journal that keeps records and has none yet. -/
def fresh : Journal :=
  ⟨some []⟩

def note (j : Journal) (r : Record) : Journal :=
  ⟨j.newestFirst.map (r :: ·)⟩

/-- The records in the order in which they were made. -/
def records (j : Journal) : List Record :=
  (j.newestFirst.getD []).reverse

/-- An empty journal of the same kind. -/
def cleared (j : Journal) : Journal :=
  ⟨j.newestFirst.map fun _ => []⟩

@[simp] theorem records_fresh : fresh.records = [] :=
  rfl

/-- A journal that is off stays off. -/
@[simp] theorem off_note (r : Record) : off.note r = off :=
  rfl

/-- A record goes to the end. -/
@[simp] theorem records_note (rs : List Record) (r : Record) :
    (Journal.note ⟨some rs⟩ r).records = (⟨some rs⟩ : Journal).records ++ [r] := by
  simp [note, records]

end Journal

end TreeScript
