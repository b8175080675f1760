import TreeScript.Document.Reader

/-!
# Numerals

A numeral is the spelling of a number in a document: digits, perhaps a point and
more digits, perhaps a power of ten. `numeral` reads the spelling and
`Numeral.quantity` gives it a number.

A numeral without point and power whose digits fit 64 bits is an integer. Any
other goes through floating point, and not with a single rounding: as many
digits as fit 64 bits are gathered and rounded to a number, which is then
multiplied or divided by the power of ten that is left.
-/

namespace TreeScript.Document

/-- The parts of a numeral. -/
structure Numeral where
  negative : Bool
  whole : List Nat
  /-- The digits behind the point, if there is one. -/
  fraction : Option (List Nat)
  /-- The power of ten, if there is one. -/
  exponent : Option Int
  deriving DecidableEq, Repr

/-- A number in a document, before it is known whether an integer will do. -/
inductive Quantity where
  | integer (n : Int)
  | real (x : Float)
  deriving DecidableEq

/-- The number nearest to a quantity. -/
def Quantity.toFloat : Quantity → Float
  | .integer n =>
    let magnitude := (UInt64.ofNat n.natAbs).toFloat
    if n < 0 then -magnitude else magnitude
  | .real x => x

def Quantity.found : Quantity → Found
  | .integer n => .integer n
  | .real x => .real x

/-! ## Spelling -/

def digitValue (b : UInt8) : Nat :=
  b.toNat - 0x30

/-- The digits at the front. -/
def digits (s : List UInt8) : List Nat × List UInt8 :=
  ((s.takeWhile isDigit).map digitValue, s.dropWhile isDigit)

/-- The fault of a numeral that lacks a digit at its end. -/
def noDigit (rest : List UInt8) : Error :=
  if rest.isEmpty then .endInValue else .invalidNumber

/-- The digits before the point. Only zero itself starts with a zero. -/
def wholeDigits : Reader (List Nat) := fun s =>
  match digits s with
  | ([], rest) => .error (noDigit rest)
  | (0 :: _ :: _, _) => .error .invalidNumber
  | (whole, rest) => .ok (whole, rest)

/-- The point and the digits behind it, if there is one. -/
def fractionDigits : Reader (Option (List Nat))
  | Mark.point :: s =>
    match digits s with
    | ([], rest) => .error (noDigit rest)
    | (fraction, rest) => .ok (some fraction, rest)
  | s => .ok (none, s)

/-- The sign of an exponent, if there is one: whether it is negative. -/
def exponentSign : List UInt8 → Bool × List UInt8
  | Mark.plus :: s => (false, s)
  | Mark.minus :: s => (true, s)
  | s => (false, s)

/-- The digits of an exponent as a number. -/
def ofDigits (digits : List Nat) : Nat :=
  digits.foldl (fun n d => n * 10 + d) 0

/-- The exponent, after its letter. -/
def exponentDigits (s : List UInt8) : Except Error (Option Int × List UInt8) :=
  let (negative, s) := exponentSign s
  match digits s with
  | ([], rest) => .error (noDigit rest)
  | (exponent, rest) =>
    .ok (some (if negative then -(ofDigits exponent : Int) else ofDigits exponent), rest)

/-- The exponent with its letter, if there is one. -/
def exponentPart : Reader (Option Int)
  | Mark.lowerE :: s => exponentDigits s
  | Mark.upperE :: s => exponentDigits s
  | s => .ok (none, s)

/-- A numeral after its sign. -/
def unsignedNumeral (negative : Bool) : Reader Numeral := fun s => do
  let (whole, s) ← wholeDigits s
  let (fraction, s) ← fractionDigits s
  let (exponent, s) ← exponentPart s
  return (⟨negative, whole, fraction, exponent⟩, s)

def numeral : Reader Numeral
  | Mark.minus :: s => unsignedNumeral true s
  | s => unsignedNumeral false s

/-! ## Meaning -/

/-- Appends digits to a number as long as it fits 64 bits, and gives the digits
that are left. -/
def gather (significand : Nat) : List Nat → Nat × List Nat
  | [] => (significand, [])
  | d :: ds =>
    if significand * 10 + d < Nat.pow 2 64 then gather (significand * 10 + d) ds
    else (significand, d :: ds)

/-- The number nearest to a power of ten. -/
def powerOfTen (k : Nat) : Float :=
  Float.ofScientific 1 false k

/-- Divides by `10 ^ (308 * rounds + last)`, at most `10 ^ 308` at a time, and
stops early at zero. -/
def scaleDown (x : Float) (last : Nat) : Nat → Float
  | 0 => x / powerOfTen last
  | rounds + 1 => if x == 0 then x else scaleDown (x / powerOfTen 308) last rounds

/-- Multiplies or divides by a power of ten. A product that is not finite is
out of range, and zero is left alone by powers that have no number. -/
def scale (x : Float) (exponent : Int) : Option Float :=
  if exponent < 0 then
    let places := exponent.natAbs - 1
    some (scaleDown x (places % 308 + 1) (places / 308))
  else if exponent ≤ 308 then
    let product := x * powerOfTen exponent.toNat
    if product.isInf then none else some product
  else if x == 0 then some x
  else none

/-- The number that a numeral stands for, or `none` if it is out of range. -/
def Numeral.quantity (n : Numeral) : Option Quantity :=
  let (whole, dropped) := gather 0 n.whole
  let signed (x : Float) : Float := if n.negative then -x else x
  match n.fraction, n.exponent, dropped with
  | none, none, [] =>
    if !n.negative then some (.integer whole)
    else if 0 < whole && whole ≤ Nat.pow 2 63 then some (.integer (-whole))
    else some (.real (signed (UInt64.ofNat whole).toFloat))
  | fraction, exponent, dropped =>
    let fraction := fraction.getD []
    let (significand, unused) := gather whole fraction
    let places : Int := fraction.length - unused.length
    (scale (UInt64.ofNat significand).toFloat
      (dropped.length - places + exponent.getD 0)).map fun x => .real (signed x)

/-- Reads a number. -/
def quantity : Reader Quantity := fun s => do
  let (numeral, s) ← numeral s
  match numeral.quantity with
  | some quantity => return (quantity, s)
  | none => throw .numberOutOfRange

/-- Passes a number that nobody needs. -/
def skipNumeral (s : List UInt8) : Except Error (List UInt8) :=
  match numeral s with
  | .ok (_, s) => .ok s
  | .error _ => .error .invalidNumber

end TreeScript.Document
