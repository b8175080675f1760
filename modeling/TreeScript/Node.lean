import TreeScript.Value

/-!
# Syntax trees

A program is a `Node`. Its operators fall into arithmetic and comparisons, which
take numbers, the two equalities, which take anything, and the connectives,
which take booleans and look at their right operand only when they have to.

`Node.equal` compares trees the way `Value.equal` compares their literals.
-/

namespace TreeScript

inductive Arithmetic where
  | add
  | subtract
  | multiply
  | divide
  deriving DecidableEq, Repr

inductive Comparison where
  | lessEqual
  | less
  | greaterEqual
  | greater
  deriving DecidableEq, Repr

inductive Connective where
  | and
  | or
  deriving DecidableEq, Repr

inductive Operator where
  | arithmetic (op : Arithmetic)
  | comparison (op : Comparison)
  | equal
  | notEqual
  | connective (op : Connective)
  deriving DecidableEq, Repr

namespace Operator

/-- The sign of an operator in dumps and messages. -/
def symbol : Operator → String
  | .arithmetic .add => "+"
  | .arithmetic .subtract => "-"
  | .arithmetic .multiply => "*"
  | .arithmetic .divide => "/"
  | .equal => "=="
  | .notEqual => "!="
  | .comparison .lessEqual => "<="
  | .comparison .less => "<"
  | .comparison .greaterEqual => ">="
  | .comparison .greater => ">"
  | .connective .and => "and"
  | .connective .or => "or"

/-- The name of an operator in documents. -/
def name : Operator → String
  | .arithmetic .add => "Addition"
  | .arithmetic .subtract => "Substraction"
  | .arithmetic .multiply => "Multiplication"
  | .arithmetic .divide => "Division"
  | .equal => "Equal"
  | .notEqual => "NotEqual"
  | .comparison .lessEqual => "LessEqual"
  | .comparison .less => "Less"
  | .comparison .greaterEqual => "GreaterEqual"
  | .comparison .greater => "Greater"
  | .connective .and => "And"
  | .connective .or => "Or"

/-- All operators, in the order in which documents list them. -/
def all : List Operator :=
  [.arithmetic .add, .arithmetic .subtract, .arithmetic .multiply, .arithmetic .divide,
    .equal, .notEqual,
    .comparison .lessEqual, .comparison .less, .comparison .greaterEqual, .comparison .greater,
    .connective .and, .connective .or]

end Operator

inductive Node where
  | literal (value : Value)
  /-- Writes its child's value and passes it on. -/
  | print (inner : Node)
  | binary (op : Operator) (left right : Node)
  | ifThen (condition body : Node)
  | ifElse (condition body otherwise : Node)
  | whileLoop (condition body : Node)
  /-- A sequence with a scope of its own. -/
  | block (nodes : List Node)
  /-- A declaration. -/
  | var (name : String)
  /-- A variable that is read, or assigned to as a target. -/
  | identifier (name : String)
  | assign (target value : Node)
  /-- A hook for inspection, which has its child's value. -/
  | inspect (inner : Node)
  deriving Inhabited

/-- What a node is, without its children. -/
inductive Node.Kind where
  | literal
  | print
  | binary
  | conditional
  | whileLoop
  | block
  | var
  | identifier
  | assign
  | inspect
  deriving DecidableEq, Repr

namespace Node

/-- The name of a kind of node in documents, messages and log lines. -/
def Kind.name : Kind → String
  | .literal => "Literal"
  | .print => "Print"
  | .binary => "BinaryOperator"
  | .conditional => "If"
  | .whileLoop => "While"
  | .block => "Block"
  | .var => "Var"
  | .identifier => "Identifier"
  | .assign => "Assign"
  | .inspect => "DebugGetValue"

/-- All kinds of node, in the order in which documents list them. -/
def Kind.all : List Kind :=
  [.literal, .print, .binary, .conditional, .whileLoop, .block, .var, .identifier, .assign,
    .inspect]

def kind : Node → Kind
  | .literal _ => .literal
  | .print _ => .print
  | .binary .. => .binary
  | .ifThen .. => .conditional
  | .ifElse .. => .conditional
  | .whileLoop .. => .whileLoop
  | .block _ => .block
  | .var _ => .var
  | .identifier _ => .identifier
  | .assign .. => .assign
  | .inspect _ => .inspect

mutual

/-- Whether two trees have one shape and equal literals. -/
def equal : Node → Node → Bool
  | .literal v, .literal w => v.equal w
  | .print a, .print b => equal a b
  | .binary op a b, .binary op' a' b' => op == op' && equal a a' && equal b b'
  | .ifThen c b, .ifThen c' b' => equal c c' && equal b b'
  | .ifElse c b e, .ifElse c' b' e' => equal c c' && equal b b' && equal e e'
  | .whileLoop c b, .whileLoop c' b' => equal c c' && equal b b'
  | .block ns, .block ns' => equalAll ns ns'
  | .var x, .var y => x == y
  | .identifier x, .identifier y => x == y
  | .assign t v, .assign t' v' => equal t t' && equal v v'
  | .inspect a, .inspect b => equal a b
  | _, _ => false

def equalAll : List Node → List Node → Bool
  | [], [] => true
  | n :: ns, m :: ms => equal n m && equalAll ns ms
  | _, _ => false

end

end Node

end TreeScript
