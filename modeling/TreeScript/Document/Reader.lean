import TreeScript.Document.Error

/-!
# Readers

A reader takes the bytes of a document from the front. It gives what it read and
the bytes that are left, or the fault that it met. The marks of the format are
named here, and so are the small readers that all others share.
-/

namespace TreeScript.Document

/-- Takes something from the front of a document. -/
abbrev Reader (α : Type) : Type :=
  List UInt8 → Except Error (α × List UInt8)

namespace Mark

@[match_pattern] abbrev quote : UInt8 := 0x22
@[match_pattern] abbrev backslash : UInt8 := 0x5c
@[match_pattern] abbrev comma : UInt8 := 0x2c
@[match_pattern] abbrev colon : UInt8 := 0x3a
@[match_pattern] abbrev listStart : UInt8 := 0x5b
@[match_pattern] abbrev listEnd : UInt8 := 0x5d
@[match_pattern] abbrev objectStart : UInt8 := 0x7b
@[match_pattern] abbrev objectEnd : UInt8 := 0x7d
@[match_pattern] abbrev plus : UInt8 := 0x2b
@[match_pattern] abbrev minus : UInt8 := 0x2d
@[match_pattern] abbrev point : UInt8 := 0x2e
@[match_pattern] abbrev zero : UInt8 := 0x30
@[match_pattern] abbrev lowerB : UInt8 := 0x62
@[match_pattern] abbrev lowerE : UInt8 := 0x65
@[match_pattern] abbrev upperE : UInt8 := 0x45
@[match_pattern] abbrev lowerF : UInt8 := 0x66
@[match_pattern] abbrev lowerN : UInt8 := 0x6e
@[match_pattern] abbrev lowerR : UInt8 := 0x72
@[match_pattern] abbrev lowerT : UInt8 := 0x74
@[match_pattern] abbrev lowerU : UInt8 := 0x75
@[match_pattern] abbrev slash : UInt8 := 0x2f

end Mark

/-- Space, tab, line feed and carriage return may stand between all marks. -/
def isBlank (b : UInt8) : Bool :=
  b == 0x20 || b == 0x09 || b == 0x0a || b == 0x0d

/-- Drops the blanks at the front. -/
def skipBlanks (s : List UInt8) : List UInt8 :=
  s.dropWhile isBlank

def isDigit (b : UInt8) : Bool :=
  0x30 ≤ b && b ≤ 0x39

/-- Reads the rest of a word of which the first letter has been seen. -/
def word : List UInt8 → List UInt8 → Except Error (List UInt8)
  | [], s => .ok s
  | _ :: _, [] => .error .endInValue
  | letter :: letters, b :: s =>
    if b = letter then word letters s else .error .expectedIdent

/-- The letters of `null` after the first. -/
def restOfNull : List UInt8 :=
  [0x75, 0x6c, 0x6c]

/-- The letters of `true` after the first. -/
def restOfTrue : List UInt8 :=
  [0x72, 0x75, 0x65]

/-- The letters of `false` after the first. -/
def restOfFalse : List UInt8 :=
  [0x61, 0x6c, 0x73, 0x65]

/-- Passes the colon after a key. -/
def colon (s : List UInt8) : Except Error (List UInt8) :=
  match skipBlanks s with
  | [] => .error .endInObject
  | Mark.colon :: s => .ok s
  | _ => .error .expectedColon

end TreeScript.Document
