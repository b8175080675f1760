import TreeScript.Document.Quoted

/-!
# Writing documents

`encode` writes a tree as a document, without blanks and with the members of
each object in their fixed order. `Node.nesting` is the number of brackets that
are open at the deepest place of this text.
-/

namespace TreeScript.Document

/-- An object with the given members, of which the values are written. -/
def object (members : List (String × String)) : String :=
  "\x7b" ++ ",".intercalate (members.map fun (key, value) => quoted key ++ ":" ++ value) ++ "\x7d"

/-- A variant with its content. -/
def tagged (name content : String) : String :=
  object [(name, content)]

def encodeValue : Value → String
  | .number x => tagged "Number" (Number.Style.document.text x)
  | .boolean b => tagged "Boolean" (if b then "true" else "false")
  | .string s => tagged "String" (quoted s)
  | .unit => quoted "Unit"

def encodeOperator (op : Operator) : String :=
  quoted op.name

mutual

/-- The document that stores a tree. -/
def encode : Node → String
  | .literal value => tagged "Literal" (encodeValue value)
  | .print inner => tagged "Print" (encode inner)
  | .binary op left right => tagged "BinaryOperator" <|
    object [("op", encodeOperator op), ("left", encode left), ("right", encode right)]
  | .ifThen condition body => tagged "If" <|
    object [("condition", encode condition), ("body", encode body)]
  | .ifElse condition body otherwise => tagged "If" <|
    object [("condition", encode condition), ("body", encode body),
      ("else_body", encode otherwise)]
  | .whileLoop condition body => tagged "While" <|
    object [("condition", encode condition), ("body", encode body)]
  | .block nodes => tagged "Block" ("[" ++ ",".intercalate (encodeAll nodes) ++ "]")
  | .var name => tagged "Var" (quoted name)
  | .identifier name => tagged "Identifier" (quoted name)
  | .assign target value => tagged "Assign" <|
    object [("target", encode target), ("value", encode value)]
  | .inspect inner => tagged "DebugGetValue" (encode inner)

def encodeAll : List Node → List String
  | [] => []
  | node :: nodes => encode node :: encodeAll nodes

end

end TreeScript.Document

namespace TreeScript

/-- How many brackets the document of a value opens. -/
def Value.nesting : Value → Nat
  | .unit => 0
  | _ => 1

mutual

/-- How many brackets are open at the deepest place of a tree's document. -/
def Node.nesting : Node → Nat
  | .literal value => value.nesting + 1
  | .print inner => inner.nesting + 1
  | .binary _ left right => max left.nesting right.nesting + 2
  | .ifThen condition body => max condition.nesting body.nesting + 2
  | .ifElse condition body otherwise =>
    max (max condition.nesting body.nesting) otherwise.nesting + 2
  | .whileLoop condition body => max condition.nesting body.nesting + 2
  | .block nodes => Node.nestingOfAll nodes + 2
  | .var _ => 1
  | .identifier _ => 1
  | .assign target value => max target.nesting value.nesting + 2
  | .inspect inner => inner.nesting + 1

def Node.nestingOfAll : List Node → Nat
  | [] => 0
  | node :: nodes => max node.nesting (Node.nestingOfAll nodes)

end

end TreeScript
