import TreeScript.Node
import TreeScript.Text.Quoted

/-!
# Dumps

`Node.dump` writes a tree for readers, in prefix form between parentheses, such
as `(block (var x) (= x 5) (print x))`. Strings are quoted and names are not.
-/

namespace TreeScript

/-- The text of a literal in a dump. -/
def Value.dump : Value → String
  | .string s => Text.quoted s
  | value => value.text

/-- Parts between parentheses, with spaces between them. -/
def parenthesized (parts : List String) : String :=
  "(" ++ " ".intercalate parts ++ ")"

mutual

/-- A tree in prefix form. -/
def Node.dump : Node → String
  | .literal value => value.dump
  | .print inner => parenthesized ["print", inner.dump]
  | .binary op left right => parenthesized [op.symbol, left.dump, right.dump]
  | .ifThen condition body => parenthesized ["if", condition.dump, body.dump]
  | .ifElse condition body otherwise =>
    parenthesized ["if", condition.dump, body.dump, otherwise.dump]
  | .whileLoop condition body => parenthesized ["while", condition.dump, body.dump]
  | .block nodes => parenthesized ("block" :: Node.dumpAll nodes)
  | .var name => parenthesized ["var", name]
  | .identifier name => name
  | .assign target value => parenthesized ["=", target.dump, value.dump]
  | .inspect inner => parenthesized ["debug", inner.dump]

def Node.dumpAll : List Node → List String
  | [] => []
  | node :: nodes => node.dump :: Node.dumpAll nodes

end

end TreeScript
