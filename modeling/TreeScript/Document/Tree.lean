import TreeScript.Document.Items

/-!
# Trees in documents

The typed part of reading: operators, values and nodes. `decode` reads a whole
document that holds a tree.

At most `nestingLimit` brackets may be open at a time. The readers are given
how many more may be opened, and that number is what their recursion goes down
on.
-/

namespace TreeScript.Document

/-- How many brackets may be open at a time. -/
def nestingLimit : Nat :=
  127

/-- The content of a variant, if one more bracket may be opened for it. -/
def inBracket {τ α : Type} (depth : Nat) (content : τ → Reader α) : Option (τ → Reader α) :=
  if depth = 0 then none else some content

/-! ## Operators and values -/

/-- Reads an operator. -/
def operator (bound depth : Nat) : Reader Operator :=
  variant bound Operator.all Operator.name (fun op => .ok op) <|
    inBracket depth fun op s => do
      let ((), s) ← null bound s
      return (op, s)

/-- The value that the name of a kind alone stands for. -/
def bareValue : Value.Kind → Except Error Value
  | .unit => .ok .unit
  | _ => .error (.invalidType .bareVariant .content)

/-- The content of a value of a kind. -/
def valueContent (bound : Nat) : Value.Kind → Reader Value
  | .number, s => do
    let (x, s) ← real bound s
    return (.number x, s)
  | .boolean, s => do
    let (b, s) ← boolean bound s
    return (.boolean b, s)
  | .string, s => do
    let (string, s) ← string bound s
    return (.string string, s)
  | .unit, s => do
    let ((), s) ← null bound s
    return (.unit, s)

/-- Reads a value. -/
def value (bound depth : Nat) : Reader Value :=
  variant bound Value.Kind.all Value.Kind.name bareValue (inBracket depth (valueContent bound))

/-! ## Nodes with named parts -/

/-- The parts of a node that have been read so far. -/
structure Members where
  seen : List String
  operator : Option Operator
  nodes : List (String × Node)

namespace Members

/-- No parts. -/
def empty : Members :=
  ⟨[], none, []⟩

/-- Reads the part with the given name. -/
def read (bound depth : Nat) (child : Reader Node) (m : Members) (name : String) :
    Reader Members := fun s =>
  let seen := name :: m.seen
  if name = "op" then do
    let (op, s) ← Document.operator bound depth s
    return (⟨seen, some op, m.nodes⟩, s)
  else if name = "else_body" then
    match skipBlanks s with
    | Mark.lowerN :: s => do return (⟨seen, m.operator, m.nodes⟩, ← word restOfNull s)
    | s => do
      let (node, s) ← child s
      return (⟨seen, m.operator, (name, node) :: m.nodes⟩, s)
  else do
    let (node, s) ← child s
    return (⟨seen, m.operator, (name, node) :: m.nodes⟩, s)

/-- A part that must not be absent. -/
def node (m : Members) (name : String) : Except Error Node :=
  match m.nodes.lookup name with
  | some node => .ok node
  | none => .error (.missingField name)

/-- Puts the parts of a node together. -/
def assemble (m : Members) : Compound → Except Error Node
  | .binary => do
    let some op := m.operator | throw (.missingField "op")
    return .binary op (← m.node "left") (← m.node "right")
  | .conditional => do
    let condition ← m.node "condition"
    let body ← m.node "body"
    match m.nodes.lookup "else_body" with
    | some otherwise => return .ifElse condition body otherwise
    | none => return .ifThen condition body
  | .whileLoop => do return .whileLoop (← m.node "condition") (← m.node "body")
  | .assign => do return .assign (← m.node "target") (← m.node "value")

end Members

/-- Reads the members of an object up to its end. A part must not be given
twice, and members with other names are passed. -/
def objectMembers (bound depth : Nat) (child : Reader Node) (compound : Compound) :
    Nat → Bool → Members → Reader Members
  | 0, _, _, _ => .error .endInObject
  | steps + 1, isFirst, m, s => do
    let (key, s) ← nextKey bound isFirst s
    match key with
    | none => return (m, s)
    | some name =>
      if name ∈ compound.fields then
        if name ∈ m.seen then throw (.duplicateField name)
        else
          let s ← colon s
          let (m, s) ← m.read bound depth child name s
          objectMembers bound depth child compound steps false m s
      else
        let s ← colon s
        let s ← skipValue bound s
        objectMembers bound depth child compound steps false m s

/-- Reads the parts of a node from a list, in their order. Only a part that may
be absent may be left out at the end. -/
def listMembers (bound depth : Nat) (child : Reader Node) (compound : Compound) :
    List String → Members → Reader Members
  | [], m, s => .ok (m, s)
  | name :: names, m, s => do
    let (more, s) ← moreItems m.seen.isEmpty s
    if more then
      let (m, s) ← m.read bound depth child name s
      listMembers bound depth child compound names m s
    else if name = "else_body" then return (m, s)
    else throw (.invalidLength m.seen.length compound)

/-- Reads a node with named parts, as an object or as a list. The children are
read by `child`, which is `none` where no further bracket may be opened. -/
def parts (bound depth : Nat) (child : Option (Reader Node)) (compound : Compound) : Reader Node :=
  fun s =>
    match skipBlanks s with
    | Mark.objectStart :: s =>
      match child with
      | none => .error .tooDeep
      | some child => do
        let (m, s) ← objectMembers bound depth child compound bound true .empty s
        let node ← m.assemble compound
        return (node, s)
    | Mark.listStart :: s =>
      match child with
      | none => .error .tooDeep
      | some child => do
        let (m, s) ← listMembers bound depth child compound compound.fields .empty s
        let node ← m.assemble compound
        let s ← endOfList s
        return (node, s)
    | s => mismatch bound (.fieldsOf compound) s

/-! ## Sequences -/

/-- Reads the nodes of a sequence up to its end. -/
def items (child : Reader Node) : Nat → Bool → Reader (List Node)
  | 0, _, _ => .error .endInList
  | steps + 1, isFirst, s => do
    let (more, s) ← moreItems isFirst s
    if more then
      let (node, s) ← child s
      let (nodes, s) ← items child steps false s
      return (node :: nodes, s)
    else return ([], ← endOfList s)

/-- Reads a sequence of nodes. -/
def sequence (bound : Nat) (child : Option (Reader Node)) : Reader (List Node) := fun s =>
  match skipBlanks s with
  | Mark.listStart :: s =>
    match child with
    | none => .error .tooDeep
    | some child => items child bound true s
  | s => mismatch bound .sequence s

/-! ## Nodes -/

/-- Every kind of node has content, so a bare name stands for nothing. -/
def bareNode {α : Type} : Node.Kind → Except Error α
  | .binary => .error (.invalidType .bareVariant .fields)
  | .conditional => .error (.invalidType .bareVariant .fields)
  | .whileLoop => .error (.invalidType .bareVariant .fields)
  | .assign => .error (.invalidType .bareVariant .fields)
  | _ => .error (.invalidType .bareVariant .content)

/-- The content of a node of a kind, inside the object of its variant. `same`
reads a node there, and `inner` one inside a further bracket. -/
def nodeContent (bound depth : Nat) (same : Reader Node) (inner : Option (Reader Node)) :
    Node.Kind → Reader Node
  | .literal, s => do
    let (v, s) ← value bound depth s
    return (.literal v, s)
  | .print, s => do
    let (node, s) ← same s
    return (.print node, s)
  | .binary, s => parts bound (depth - 1) inner .binary s
  | .conditional, s => parts bound (depth - 1) inner .conditional s
  | .whileLoop, s => parts bound (depth - 1) inner .whileLoop s
  | .block, s => do
    let (nodes, s) ← sequence bound inner s
    return (.block nodes, s)
  | .var, s => do
    let (name, s) ← string bound s
    return (.var name, s)
  | .identifier, s => do
    let (name, s) ← string bound s
    return (.identifier name, s)
  | .assign, s => parts bound (depth - 1) inner .assign s
  | .inspect, s => do
    let (node, s) ← same s
    return (.inspect node, s)

/-- Reads a node with at most `depth` more brackets open at a time. -/
def node (bound : Nat) : Nat → Reader Node
  | 0 => variant bound Node.Kind.all Node.Kind.name bareNode none
  | 1 => variant bound Node.Kind.all Node.Kind.name bareNode <|
    some (nodeContent bound 0 (node bound 0) none)
  | depth + 2 => variant bound Node.Kind.all Node.Kind.name bareNode <|
    some (nodeContent bound (depth + 1) (node bound (depth + 1)) (some (node bound depth)))

/-! ## Whole documents -/

/-- Reads a whole document, after which only blanks may follow. -/
def whole {α : Type} (reader : Nat → Reader α) (bytes : ByteArray) : Except Error α := do
  let s := bytes.data.toList
  let (result, s) ← reader (s.length + 1) s
  if (skipBlanks s).isEmpty then return result else throw .trailingCharacters

/-- The tree in a document. -/
def decode (bytes : ByteArray) : Except Error Node :=
  whole (fun bound => node bound nestingLimit) bytes

/-- The value in a document. -/
def decodeValue (bytes : ByteArray) : Except Error Value :=
  whole (fun bound => value bound nestingLimit) bytes

/-- The operator in a document. -/
def decodeOperator (bytes : ByteArray) : Except Error Operator :=
  whole (fun bound => operator bound nestingLimit) bytes

end TreeScript.Document
