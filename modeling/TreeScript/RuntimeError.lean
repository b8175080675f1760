import TreeScript.Node

/-!
# Errors of a run

A run fails for one of seven reasons, each a constructor of `RuntimeError`; an
embedding program may raise errors in its own words as well. `RuntimeError.kind`
is the class that a report names, and `RuntimeError.message` the wording.
-/

namespace TreeScript

inductive ErrorKind where
  | typeMismatch
  | undefinedVariable
  | divisionByZero
  | invalidAssignmentTarget
  | conditionNotBoolean
  | output
  deriving DecidableEq, Repr

def ErrorKind.name : ErrorKind → String
  | .typeMismatch => "TypeMismatch"
  | .undefinedVariable => "UndefinedVariable"
  | .divisionByZero => "DivisionByZero"
  | .invalidAssignmentTarget => "InvalidAssignmentTarget"
  | .conditionNotBoolean => "ConditionNotBoolean"
  | .output => "Output"

def ErrorKind.all : List ErrorKind :=
  [.typeMismatch, .undefinedVariable, .divisionByZero, .invalidAssignmentTarget,
    .conditionNotBoolean, .output]

/-- The two constructs that test a condition. -/
inductive Construct where
  | branch
  | loop
  deriving DecidableEq, Repr

def Construct.keyword : Construct → String
  | .branch => "if"
  | .loop => "while"

inductive RuntimeError where
  /-- An operator on numbers met another kind of operand. -/
  | notNumbers (op : Operator) (left right : Value.Kind)
  /-- A connective met an operand that is no boolean. -/
  | notBoolean (op : Connective) (found : Value.Kind)
  | undefinedVariable (name : String)
  | divisionByZero
  /-- An assignment to a node that names no variable. -/
  | invalidTarget (found : Node.Kind)
  | conditionNotBoolean (construct : Construct) (found : Value.Kind)
  /-- The sink did not take what was printed. -/
  | outputFailed (reason : String)
  /-- An error in the words of an embedding program. -/
  | raised (kind : ErrorKind) (message : String)
  deriving DecidableEq, Repr

namespace RuntimeError

def kind : RuntimeError → ErrorKind
  | .notNumbers .. => .typeMismatch
  | .notBoolean .. => .typeMismatch
  | .undefinedVariable _ => .undefinedVariable
  | .divisionByZero => .divisionByZero
  | .invalidTarget _ => .invalidAssignmentTarget
  | .conditionNotBoolean .. => .conditionNotBoolean
  | .outputFailed _ => .output
  | .raised kind _ => kind

def message : RuntimeError → String
  | .notNumbers op left right =>
    s!"Operands of '{op.symbol}' must be numbers, got {left.word} and {right.word}."
  | .notBoolean op found =>
    s!"Operands of '{(Operator.connective op).symbol}' must be booleans, got {found.word}."
  | .undefinedVariable name => s!"Undefined variable '{name}'."
  | .divisionByZero => "Division by zero."
  | .invalidTarget found => s!"Cannot assign to a {found.name} node."
  | .conditionNotBoolean construct found =>
    s!"Condition of '{construct.keyword}' must be a boolean, got {found.word}."
  | .outputFailed reason => s!"Failed to write output: {reason}"
  | .raised _ message => message

/-- The full text of an error, with its kind. -/
def report (e : RuntimeError) : String :=
  s!"Runtime error ({e.kind.name}): {e.message}"

end RuntimeError

end TreeScript
