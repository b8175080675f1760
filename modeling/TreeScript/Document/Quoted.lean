import TreeScript.Document.Reader

/-!
# Strings of a document

A string stands between double quotes. Inside, a backslash starts an escape, and
controls have to be escaped. `text` reads a string after its opening quote, and
`skipText` passes one without looking at what its escapes stand for. `quoted`
writes a string with the escapes it needs and no others.

The number given to `text` bounds the length of what is read; the length of the
document will do.
-/

namespace TreeScript.Document

/-! ## Reading -/

/-- The value of a digit to base sixteen. -/
def hexValue (b : UInt8) : Option Nat :=
  if 0x30 ≤ b && b ≤ 0x39 then some (b.toNat - 0x30)
  else if 0x61 ≤ b && b ≤ 0x66 then some (b.toNat - 0x61 + 10)
  else if 0x41 ≤ b && b ≤ 0x46 then some (b.toNat - 0x41 + 10)
  else none

/-- The four digits of an escaped code unit. -/
def hexUnit : Reader Nat
  | a :: b :: c :: d :: s =>
    match hexValue a, hexValue b, hexValue c, hexValue d with
    | some a, some b, some c, some d => .ok (((a * 16 + b) * 16 + c) * 16 + d, s)
    | _, _, _, _ => .error .invalidEscape
  | _ => .error .endInString

def isHighSurrogate (unit : Nat) : Bool :=
  0xd800 ≤ unit && unit ≤ 0xdbff

def isLowSurrogate (unit : Nat) : Bool :=
  0xdc00 ≤ unit && unit ≤ 0xdfff

/-- The character that two surrogates stand for. -/
def surrogatePair (high low : Nat) : Char :=
  Char.ofNat (0x10000 + (high - 0xd800) * 0x400 + (low - 0xdc00))

/-- The escape that has to follow a high surrogate. -/
def lowSurrogate (high : Nat) : Reader Char
  | [] => .error .endInString
  | Mark.backslash :: [] => .error .endInString
  | Mark.backslash :: Mark.lowerU :: s => do
    let (low, s) ← hexUnit s
    if isLowSurrogate low then return (surrogatePair high low, s)
    else throw .loneSurrogate
  | _ => .error .endOfHexEscape

/-- The character of an escaped code unit, or of two that are surrogates. -/
def unitEscape : Reader Char := fun s => do
  let (unit, s) ← hexUnit s
  if isLowSurrogate unit then throw .loneSurrogate
  else if isHighSurrogate unit then lowSurrogate unit s
  else return (Char.ofNat unit, s)

/-- The character of an escape by a single letter. -/
def letterEscape (b : UInt8) : Option Char :=
  match b with
  | Mark.quote => some '"'
  | Mark.backslash => some '\\'
  | Mark.slash => some '/'
  | Mark.lowerB => some '\x08'
  | Mark.lowerF => some '\x0c'
  | Mark.lowerN => some '\n'
  | Mark.lowerR => some '\r'
  | Mark.lowerT => some '\t'
  | _ => none

/-- The character of an escape, after its backslash. -/
def escape : Reader Char
  | [] => .error .endInString
  | Mark.lowerU :: s => unitEscape s
  | b :: s =>
    match letterEscape b with
    | some c => .ok (c, s)
    | none => .error .invalidEscape

/-- The bytes of a string up to its closing quote, put before those that were
read, in reverse. -/
def stringBytes : Nat → List UInt8 → Reader (List UInt8)
  | 0, _, _ => .error .endInString
  | _ + 1, _, [] => .error .endInString
  | _ + 1, read, Mark.quote :: s => .ok (read.reverse, s)
  | bound + 1, read, Mark.backslash :: s => do
    let (c, s) ← escape s
    stringBytes bound ((String.utf8EncodeChar c).reverse ++ read) s
  | bound + 1, read, b :: s =>
    if b < 0x20 then .error .controlCharacter
    else stringBytes bound (b :: read) s

/-- A string, after its opening quote. -/
def text (bound : Nat) : Reader String := fun s => do
  let (bytes, s) ← stringBytes bound [] s
  match String.fromUTF8? ⟨bytes.toArray⟩ with
  | some string => return (string, s)
  | none => throw .invalidCodePoint

/-- Passes a string, after its opening quote. -/
def skipText : List UInt8 → Except Error (List UInt8)
  | [] => .error .endInString
  | Mark.quote :: s => .ok s
  | Mark.backslash :: [] => .error .endInString
  | Mark.backslash :: Mark.lowerU :: a :: b :: c :: d :: s =>
    if (hexUnit [a, b, c, d]).isOk then skipText s else .error .invalidEscape
  | Mark.backslash :: Mark.lowerU :: _ => .error .endInString
  | Mark.backslash :: b :: s =>
    if (letterEscape b).isSome then skipText s else .error .invalidEscape
  | b :: s =>
    if b < 0x20 then .error .controlCharacter else skipText s

/-! ## Writing -/

/-- A digit to base sixteen, in lower case. -/
def hexDigit (n : Nat) : Char :=
  Nat.digitChar (n % 16)

/-- How one character is written inside the quotes. -/
def escapeChar (c : Char) : List Char :=
  match c with
  | '"' => ['\\', '"']
  | '\\' => ['\\', '\\']
  | '\x08' => ['\\', 'b']
  | '\t' => ['\\', 't']
  | '\n' => ['\\', 'n']
  | '\x0c' => ['\\', 'f']
  | '\r' => ['\\', 'r']
  | c =>
    if c.toNat < 0x20 then ['\\', 'u', '0', '0', hexDigit (c.toNat / 16), hexDigit c.toNat]
    else [c]

/-- A string between quotes, with the escapes it needs. -/
def quoted (s : String) : String :=
  String.ofList ('"' :: s.toList.flatMap escapeChar ++ ['"'])

end TreeScript.Document
