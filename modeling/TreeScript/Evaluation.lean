import TreeScript.Machine

/-!
# Evaluation

`Node.evaluate` gives every node its meaning as an action. It follows the tree;
only a loop can come back to a node, and the number that `evaluate` is given
bounds the laps of each loop.

Operands are evaluated from left to right, and the right operand of arithmetic
and comparisons before either is looked at. A connective leaves its right
operand alone when the left one settles the result. A branch, a lap and a block
each have a scope of their own, and a condition belongs to the scope around it.
-/

namespace TreeScript

namespace Arithmetic

/-- The number that an arithmetic operator gives. -/
def apply : Arithmetic → Float → Float → Float
  | .add, a, b => a + b
  | .subtract, a, b => a - b
  | .multiply, a, b => a * b
  | .divide, a, b => a / b

end Arithmetic

namespace Comparison

/-- Whether a comparison holds; none holds of a number that is `NaN`. -/
def holds : Comparison → Float → Float → Bool
  | .lessEqual, a, b => a ≤ b
  | .less, a, b => a < b
  | .greaterEqual, a, b => b ≤ a
  | .greater, a, b => b < a

end Comparison

/-- The value of the left operand that settles a connective. -/
def Connective.settledBy : Connective → Bool
  | .and => false
  | .or => true

namespace Action

/-- The operand of a connective, which has to be a boolean. -/
def booleanOperand (op : Connective) (value : Value) : Action Bool :=
  ofOption (.notBoolean op value.kind) value.asBoolean?

/-- The operands of an operator on numbers. -/
def numberOperands (op : Operator) (left right : Value) : Action (Float × Float) := do
  note (.operands op left right)
  match left, right with
  | .number a, .number b => pure (a, b)
  | _, _ => fail (.notNumbers op left.kind right.kind)

/-- Applies an arithmetic operator; only division has a case it refuses. -/
def arithmetic (op : Arithmetic) (left right : Value) : Action Value := do
  let (a, b) ← numberOperands (.arithmetic op) left right
  if op = .divide && b == 0 then
    note (.zeroDivisor a)
    fail .divisionByZero
  else
    pure (.number (op.apply a b))

def comparison (op : Comparison) (left right : Value) : Action Value := do
  let (a, b) ← numberOperands (.comparison op) left right
  pure (.boolean (op.holds a b))

/-- A connective with its left operand evaluated. -/
def connective (op : Connective) (left : Value) (right : Action Value) : Action Value := do
  let a ← booleanOperand op left
  if a = op.settledBy then
    note (.shortCircuit op)
    pure (.boolean a)
  else
    let value ← right
    let b ← booleanOperand op value
    pure (.boolean b)

/-- A binary operator applied to two operands, of which the right one is
evaluated on demand. -/
def binary (op : Operator) (left right : Action Value) : Action Value := do
  note (.operation op)
  let a ← left
  match op with
  | .connective op => connective op a right
  | .equal => do
    let b ← right
    pure (.boolean (a.equal b))
  | .notEqual => do
    let b ← right
    pure (.boolean (!a.equal b))
  | .arithmetic op => do
    let b ← right
    arithmetic op a b
  | .comparison op => do
    let b ← right
    comparison op a b

/-- The condition of a branch or a loop, which has to be a boolean. -/
def condition (construct : Construct) (test : Action Value) : Action Bool := do
  let value ← test
  ofOption (.conditionNotBoolean construct value.kind) value.asBoolean?

/-- Assigns to a node, which has to be an identifier. -/
def assignTo (target : Node) (value : Value) : Action Value :=
  match target with
  | .identifier name => do
    assign name value
    note (.assigned value name)
    pure value
  | other => fail (.invalidTarget other.kind)

/-- The records that surround the evaluation of a node. -/
def visiting (kind : Node.Kind) (body : Action Value) : Action Value := do
  note (.nodeEntered kind)
  let value ← body
  note (.nodeLeft kind value)
  pure value

end Action

namespace Node

open TreeScript.Action

mutual

/-- Evaluates a node, with a bound on the laps of each loop. -/
def evaluate (laps : Nat) : Node → Action Value
  | .literal value => visiting .literal (Action.pure value)
  | .print inner => visiting .print do
    let value ← evaluate laps inner
    Action.print value
    note (.printed value)
    return value
  | .binary op left right =>
    visiting .binary (Action.binary op (evaluate laps left) (evaluate laps right))
  | .ifThen test body => visiting .conditional do
    if ← condition .branch (evaluate laps test) then
      note .conditionTrue
      inScope (evaluate laps body)
    else
      return .unit
  | .ifElse test body otherwise => visiting .conditional do
    if ← condition .branch (evaluate laps test) then
      note .conditionTrue
      inScope (evaluate laps body)
    else
      note .conditionFalse
      inScope (evaluate laps otherwise)
  | .whileLoop test body => visiting .whileLoop do
    let count ← repeatWhile (condition .loop (evaluate laps test))
      (inScope do let _ ← evaluate laps body) laps 0
    note (.loopExited count)
    return .unit
  | .block nodes => visiting .block do
    note (.blockEntered nodes.length)
    inScope (evaluateAll laps .unit nodes)
  | .var name => visiting .var do
    declare name
    note (.declared name)
    return .unit
  | .identifier name => visiting .identifier (get name)
  | .assign target value => visiting .assign do
    let value ← evaluate laps value
    assignTo target value
  | .inspect inner => visiting .inspect (evaluate laps inner)

/-- Evaluates nodes in turn. The value is the last one's, or the given one if
there are none. -/
def evaluateAll (laps : Nat) (last : Value) : List Node → Action Value
  | [] => Action.pure last
  | node :: nodes => do
    let value ← evaluate laps node
    evaluateAll laps value nodes

end

/-- Runs a tree as a whole program, which leaves records of its start and end. -/
def runProgram (laps : Nat) (root : Node) : Action Value :=
  Action.bind (note (.programStarted root.kind)) fun _ m =>
    match root.evaluate laps m with
    | none => none
    | some (.ok value, m) =>
      Action.bind (note (.programFinished value)) (fun _ => Action.pure value) m
    | some (.error e, m) =>
      Action.bind (note (.programAborted e)) (fun _ m => some (.error e, m)) m

end Node

end TreeScript
