import TreeScript.Node

/-!
# Faults of a document

A document that holds no tree is rejected with an `Error`. Its class tells a
text that breaks off (`eof`) from one that is not well formed (`syntax`) and
from one that is, but holds something else than what belongs there (`data`).
-/

namespace TreeScript.Document

/-- A node whose parts have names of their own in a document. -/
inductive Compound where
  | binary
  | conditional
  | whileLoop
  | assign
  deriving DecidableEq, Repr

def Compound.kind : Compound → Node.Kind
  | .binary => .binary
  | .conditional => .conditional
  | .whileLoop => .whileLoop
  | .assign => .assign

/-- The names of the parts, in the order in which a list gives them. -/
def Compound.fields : Compound → List String
  | .binary => ["op", "left", "right"]
  | .conditional => ["condition", "body", "else_body"]
  | .whileLoop => ["condition", "body"]
  | .assign => ["target", "value"]

/-- What stands in a document where something else belongs. -/
inductive Found where
  | null
  | boolean (b : Bool)
  | integer (n : Int)
  | real (x : Float)
  | string (s : String)
  | sequence
  | map
  | bareVariant
  deriving DecidableEq

/-- What belongs at a place in a document. -/
inductive Expected where
  | real
  | boolean
  | string
  | sequence
  | unit
  | content
  | fields
  | fieldsOf (compound : Compound)
  deriving DecidableEq, Repr

inductive Error where
  | expectedValue
  | expectedIdent
  | expectedColon
  | expectedListCommaOrEnd
  | expectedObjectCommaOrEnd
  | trailingCharacters
  | trailingComma
  | keyNotString
  | controlCharacter
  | invalidEscape
  | endOfHexEscape
  | loneSurrogate
  | invalidCodePoint
  | invalidNumber
  | numberOutOfRange
  | tooDeep
  | endInValue
  | endInList
  | endInObject
  | endInString
  | unknownVariant (name : String) (known : List String)
  | invalidType (found : Found) (expected : Expected)
  | invalidLength (length : Nat) (compound : Compound)
  | missingField (name : String)
  | duplicateField (name : String)
  deriving DecidableEq

inductive Error.Class where
  | malformed
  | eof
  | data
  deriving DecidableEq, Repr

end TreeScript.Document
