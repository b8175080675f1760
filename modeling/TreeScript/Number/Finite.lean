/-!
# Finite numbers

A number is finite, infinite or not a number at all. A finite one is
`± mantissa · 2 ^ exponent`, and `shape` reads these three parts off the bits.

The decimals that read back as a finite number fill an interval around it.
Its ends are halfway to the two neighbours, and they belong to it exactly when
the mantissa is even, since a tie is rounded to the even neighbour.
-/

namespace TreeScript.Number

/-- A finite number, `± mantissa · 2 ^ exponent`. -/
structure Finite where
  negative : Bool
  mantissa : Nat
  exponent : Int
  deriving DecidableEq, Repr

inductive Shape where
  | finite (parts : Finite)
  | infinite (negative : Bool)
  | notANumber
  deriving DecidableEq, Repr

/-- The parts of a number, from its bits: a sign, eleven bits of exponent and
fifty-two bits of fraction. -/
def shape (x : Float) : Shape :=
  let bits := x.toBits.toNat
  let negative := bits / Nat.pow 2 63 == 1
  let field : Nat := bits / Nat.pow 2 52 % Nat.pow 2 11
  let fraction : Nat := bits % Nat.pow 2 52
  if field = 2047 then
    if fraction = 0 then .infinite negative else .notANumber
  else if field = 0 then
    .finite ⟨negative, fraction, -1074⟩
  else
    .finite ⟨negative, Nat.pow 2 52 + fraction, (field : Int) - 1075⟩

namespace Finite

/-- A whole number has no binary digit behind the point. -/
def isWhole (x : Finite) : Bool :=
  x.mantissa % Nat.pow 2 (-x.exponent).toNat == 0

/-- The magnitude without what stands behind the point. -/
def wholePart (x : Finite) : Nat :=
  x.mantissa * Nat.pow 2 x.exponent.toNat / Nat.pow 2 (-x.exponent).toNat

/-- Below a power of two the neighbours stand twice as close. -/
def lowerGapIsHalf (x : Finite) : Bool :=
  x.mantissa = Nat.pow 2 52 && -1074 < x.exponent

/-!
## The interval that reads back

Everything is counted in quarters of `2 ^ exponent`, so that both ends of the
interval are natural numbers.
-/

/-- The value, in quarters. -/
def centre (x : Finite) : Nat :=
  4 * x.mantissa

/-- The lower end, in quarters. -/
def lower (x : Finite) : Nat :=
  4 * x.mantissa - if x.lowerGapIsHalf then 1 else 2

/-- The upper end, in quarters. -/
def upper (x : Finite) : Nat :=
  4 * x.mantissa + 2

/-- Whether `point / unit` quarters lie in the interval. -/
def reaches (x : Finite) (point unit : Nat) : Bool :=
  if x.mantissa % 2 = 0 then
    x.lower * unit ≤ point && point ≤ x.upper * unit
  else
    x.lower * unit < point && point < x.upper * unit

end Finite

end TreeScript.Number
