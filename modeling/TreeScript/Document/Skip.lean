import TreeScript.Document.Numeral
import TreeScript.Document.Quoted

/-!
# Values that nobody needs

A member with an unknown name is passed without being read. Its value may be
nested to any depth, so the brackets that are open are kept in a list.
-/

namespace TreeScript.Document

inductive Bracket where
  | list
  | object
  deriving DecidableEq, Repr

/-- What comes next inside the open brackets. -/
inductive Awaited where
  /-- A value. -/
  | value
  /-- A comma before another item, or the end of the innermost bracket. -/
  | more
  deriving DecidableEq, Repr

/-- Passes a value that is not nested. -/
def skipScalar : List UInt8 → Except Error (List UInt8)
  | [] => .error .endInValue
  | Mark.lowerN :: s => word restOfNull s
  | Mark.lowerT :: s => word restOfTrue s
  | Mark.lowerF :: s => word restOfFalse s
  | Mark.quote :: s => skipText s
  | b :: s => if b = Mark.minus || isDigit b then skipNumeral (b :: s) else .error .expectedValue

/-- Passes a key and its colon. -/
def skipKey (s : List UInt8) : Except Error (List UInt8) :=
  match skipBlanks s with
  | [] => .error .endInObject
  | Mark.quote :: s => do colon (← skipText s)
  | _ => .error .keyNotString

/-- Passes a value inside the given brackets, and what follows it up to the end
of the outermost bracket. The number bounds the steps; one more than the length
of what is passed will do. -/
def skipNested : Nat → Awaited → List Bracket → List UInt8 → Except Error (List UInt8)
  | 0, _, _, _ => .error .endInValue
  | bound + 1, .value, brackets, s =>
    match skipBlanks s with
    | Mark.listStart :: s =>
      match skipBlanks s with
      | [] => .error .endInList
      | Mark.listEnd :: s => skipNested bound .more brackets s
      | s => skipNested bound .value (.list :: brackets) s
    | Mark.objectStart :: s =>
      match skipBlanks s with
      | Mark.objectEnd :: s => skipNested bound .more brackets s
      | s => do skipNested bound .value (.object :: brackets) (← skipKey s)
    | s => do skipNested bound .more brackets (← skipScalar s)
  | _ + 1, .more, [], s => .ok s
  | bound + 1, .more, .list :: brackets, s =>
    match skipBlanks s with
    | [] => .error .endInList
    | Mark.listEnd :: s => skipNested bound .more brackets s
    | Mark.comma :: s => skipNested bound .value (.list :: brackets) s
    | _ => .error .expectedListCommaOrEnd
  | bound + 1, .more, .object :: brackets, s =>
    match skipBlanks s with
    | [] => .error .endInObject
    | Mark.objectEnd :: s => skipNested bound .more brackets s
    | Mark.comma :: s => do skipNested bound .value (.object :: brackets) (← skipKey s)
    | _ => .error .expectedObjectCommaOrEnd

/-- Passes a value of any depth. -/
def skipValue (bound : Nat) (s : List UInt8) : Except Error (List UInt8) :=
  skipNested bound .value [] s

end TreeScript.Document
