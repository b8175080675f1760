import TreeScript.Document.Error
import TreeScript.Text.Quoted

/-!
# The wording of faults

`Error.message` words a fault of a document, and `Error.category` is its class. Where a fault is
reported, its place (` at line L column C`) follows the message; the place is not modelled here,
nor in the reports and lines of the log that have the message in them.
-/

namespace TreeScript.Document

def Found.text : Found → String
  | .null => "null"
  | .boolean b => s!"boolean `{b}`"
  | .integer n => s!"integer `{n}`"
  | .real x => s!"floating point `{Number.Style.document.text x}`"
  | .string s => s!"string {Text.quoted s}"
  | .sequence => "sequence"
  | .map => "map"
  | .bareVariant => "unit variant"

def Expected.text : Expected → String
  | .real => "f64"
  | .boolean => "a boolean"
  | .string => "a string"
  | .sequence => "a sequence"
  | .unit => "unit"
  | .content => "newtype variant"
  | .fields => "struct variant"
  | .fieldsOf compound => s!"struct variant Node::{compound.kind.name}"

namespace Error

/-- Names in backticks, with commas between them. -/
def listed (names : List String) : String :=
  ", ".intercalate (names.map fun name => s!"`{name}`")

/-- The wording of a fault, without the place where it is in the document. -/
def message : Error → String
  | .expectedValue => "expected value"
  | .expectedIdent => "expected ident"
  | .expectedColon => "expected `:`"
  | .expectedListCommaOrEnd => "expected `,` or `]`"
  | .expectedObjectCommaOrEnd => "expected `,` or `\x7d`"
  | .trailingCharacters => "trailing characters"
  | .trailingComma => "trailing comma"
  | .keyNotString => "key must be a string"
  | .controlCharacter =>
    "control character (\\u0000-\\u001F) found while parsing a string"
  | .invalidEscape => "invalid escape"
  | .endOfHexEscape => "unexpected end of hex escape"
  | .loneSurrogate => "lone leading surrogate in hex escape"
  | .invalidCodePoint => "invalid unicode code point"
  | .invalidNumber => "invalid number"
  | .numberOutOfRange => "number out of range"
  | .tooDeep => "recursion limit exceeded"
  | .endInValue => "EOF while parsing a value"
  | .endInList => "EOF while parsing a list"
  | .endInObject => "EOF while parsing an object"
  | .endInString => "EOF while parsing a string"
  | .unknownVariant name known => s!"unknown variant `{name}`, expected one of {listed known}"
  | .invalidType found expected => s!"invalid type: {found.text}, expected {expected.text}"
  | .invalidLength length compound =>
    s!"invalid length {length}, expected {(Expected.fieldsOf compound).text} with {compound.fields.length} elements"
  | .missingField name => s!"missing field `{name}`"
  | .duplicateField name => s!"duplicate field `{name}`"

def category : Error → Class
  | .endInValue => .eof
  | .endInList => .eof
  | .endInObject => .eof
  | .endInString => .eof
  | .unknownVariant .. => .data
  | .invalidType .. => .data
  | .invalidLength .. => .data
  | .missingField _ => .data
  | .duplicateField _ => .data
  | _ => .malformed

end Error

def Error.Class.name : Class → String
  | .malformed => "syntax"
  | .eof => "eof"
  | .data => "data"

end TreeScript.Document
