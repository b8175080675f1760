import TreeScript.Number.Finite

/-!
# The shortest decimal

`Finite.shortest` is the decimal with the fewest digits that reads back as a
given number, and of two such decimals the nearer one.

The multiples of a power of ten form a grid. `Finite.onGrid` tries the two
points of one grid that stand around the number. `Finite.scan` goes through the
grids from coarse to fine, and the first grid with a hit has the fewest digits.
The last grid holds the number itself, so the scan always ends with a hit.
-/

namespace TreeScript.Number

/-- The number `significand · 10 ^ exponent`. -/
structure Decimal where
  significand : Nat
  exponent : Int
  deriving DecidableEq, Repr

/-- Which of two equally near decimals is taken. -/
inductive Tie where
  | up
  | even
  deriving DecidableEq, Repr

namespace Finite

/-- The point of the grid of `10 ^ k` that stands for the number, if one of the
two points around it reads back. -/
def onGrid (tie : Tie) (x : Finite) (k : Int) : Option Nat :=
  let unit := Nat.pow 2 (x.exponent - 2).toNat * Nat.pow 10 (-k).toNat
  let step := Nat.pow 2 (2 - x.exponent).toNat * Nat.pow 10 k.toNat
  let below := x.centre * unit / step
  let rest := x.centre * unit % step
  match x.reaches (below * step) unit, x.reaches ((below + 1) * step) unit with
  | false, false => none
  | true, false => some below
  | false, true => some (below + 1)
  | true, true =>
    if 2 * rest < step then some below
    else if step < 2 * rest then some (below + 1)
    else match tie with
      | .up => some (below + 1)
      | .even => some (if below % 2 = 0 then below else below + 1)

/-- The finest grid of interest, on which the number itself stands. -/
def finest (x : Finite) : Int :=
  min x.exponent 0

/-- A power of ten above the number, since `2 ^ 3 < 10` and `10 ^ 3 < 2 ^ 10`. -/
def coarsest (x : Finite) : Int :=
  let bits : Int := Nat.log2 x.mantissa + 1 + x.exponent
  if 0 ≤ bits then bits / 3 + 1 else bits * 3 / 10 + 1

/-- The number itself as a decimal. -/
def exact (x : Finite) : Decimal :=
  ⟨x.mantissa * Nat.pow 2 x.exponent.toNat * Nat.pow 5 (-x.exponent).toNat, x.finest⟩

/-- The first hit on the grids from `10 ^ (finest + steps)` down to `10 ^ finest`. -/
def scan (tie : Tie) (x : Finite) : Nat → Decimal
  | 0 => x.exact
  | steps + 1 =>
    let k := x.finest + (steps + 1)
    match x.onGrid tie k with
    | some point => ⟨point, k⟩
    | none => scan tie x steps

/-- The fewest digits that read back as the number. -/
def shortest (tie : Tie) (x : Finite) : Decimal :=
  if x.mantissa = 0 then ⟨0, 0⟩
  else x.scan tie (x.coarsest - x.finest).toNat

end Finite

end TreeScript.Number
