import TreeScript.Number.Shortest

/-!
# The text of a number

A `Style` says how a number is written: which decimal stands for it, when the
point stays among the digits, and what whole and non-finite numbers look like.
Three styles are in use. `Style.display` is what programs print, `Style.plain`
is what a log line shows for a bare operand, and `Style.document` is what a
stored tree holds.
-/

namespace TreeScript.Number

/-- How a kind of output writes numbers. -/
structure Style where
  /-- Which of two equally near shortest decimals is taken. -/
  tie : Tie
  /-- Whole numbers are written with all their digits, and not the fewest. -/
  exactWhole : Bool
  /-- Whether the number is written without an exponent when its first digit
  stands at this power of ten. -/
  positional : Int → Bool
  /-- What follows a whole number that is written without an exponent. -/
  wholeMark : String
  notANumber : String
  infinite : String
  negativeInfinite : String

/-- Whole numbers have all their digits, others the fewest that read back, and
no number has an exponent. -/
def Style.display : Style where
  tie := .up
  exactWhole := true
  positional := fun _ => true
  wholeMark := ""
  notANumber := "NaN"
  infinite := "inf"
  negativeInfinite := "-inf"

/-- Every number has the fewest digits that read back, and none an exponent. -/
def Style.plain : Style :=
  { Style.display with exactWhole := false }

/-- The fewest digits that read back, without an exponent from `0.00001` up to
sixteen digits. A document has no way to write a number that is not finite. -/
def Style.document : Style where
  tie := .even
  exactWhole := false
  positional := fun e => -5 ≤ e && e ≤ 15
  wholeMark := ".0"
  notANumber := "null"
  infinite := "null"
  negativeInfinite := "null"

/-- The digits of a decimal, the first one foremost. -/
def Decimal.digits (d : Decimal) : List Char :=
  Nat.toDigits 10 d.significand

/-- The power of ten at which the first digit stands. -/
def Decimal.leading (d : Decimal) : Int :=
  d.exponent + (d.digits.length - 1 : Nat)

/-- All digits in their places, with zeros up to the point where it lies
outside of them. -/
def Decimal.positionalText (d : Decimal) (wholeMark : String) : String :=
  let digits := d.digits
  if 0 ≤ d.exponent then
    String.ofList (digits ++ List.replicate d.exponent.toNat '0') ++ wholeMark
  else
    let places := (-d.exponent).toNat
    if places < digits.length then
      String.ofList (digits.take (digits.length - places)) ++ "." ++
        String.ofList (digits.drop (digits.length - places))
    else
      "0." ++ String.ofList (List.replicate (places - digits.length) '0' ++ digits)

/-- One digit before the point, and the power of ten with its sign. -/
def Decimal.scientificText (d : Decimal) : String :=
  let exponent := d.leading
  let mark := if exponent < 0 then "e-" else "e+"
  let digits := match d.digits with
    | first :: second :: more => String.ofList (first :: '.' :: second :: more)
    | digits => String.ofList digits
  digits ++ mark ++ toString exponent.natAbs

/-- The decimal that a style writes for a number. -/
def Style.decimal (style : Style) (x : Finite) : Decimal :=
  if style.exactWhole && x.isWhole then ⟨x.wholePart, 0⟩ else x.shortest style.tie

def Style.finiteText (style : Style) (x : Finite) : String :=
  let d := style.decimal x
  let sign := if x.negative then "-" else ""
  sign ++ if style.positional d.leading then d.positionalText style.wholeMark
    else d.scientificText

/-- The text of a number in a style. -/
def Style.text (style : Style) (x : Float) : String :=
  match shape x with
  | .finite parts => style.finiteText parts
  | .infinite false => style.infinite
  | .infinite true => style.negativeInfinite
  | .notANumber => style.notANumber

end TreeScript.Number
