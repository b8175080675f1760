import TreeScript.Number.Text

/-!
# Values

A value is a number, a boolean, a string or the unit, and every evaluation ends
in one. `Value.equal` is the language's own equality: values of different kinds
differ, and numbers compare as floating point does, so that `NaN` differs from
itself and the two zeros agree. Lean's `=` on values is identity.
-/

namespace TreeScript

inductive Value where
  | number (x : Float)
  | boolean (b : Bool)
  | string (s : String)
  | unit
  deriving DecidableEq, Inhabited

/-- What a value is, without its content. -/
inductive Value.Kind where
  | number
  | boolean
  | string
  | unit
  deriving DecidableEq, Repr

namespace Value

/-- The word for a kind of value in messages. -/
def Kind.word : Kind → String
  | .number => "number"
  | .boolean => "boolean"
  | .string => "string"
  | .unit => "none"

/-- The name of a kind of value in documents. -/
def Kind.name : Kind → String
  | .number => "Number"
  | .boolean => "Boolean"
  | .string => "String"
  | .unit => "Unit"

/-- All kinds of value, in the order in which documents list them. -/
def Kind.all : List Kind :=
  [.number, .boolean, .string, .unit]

def kind : Value → Kind
  | .number _ => .number
  | .boolean _ => .boolean
  | .string _ => .string
  | .unit => .unit

def asNumber? : Value → Option Float
  | .number x => some x
  | _ => none

def asBoolean? : Value → Option Bool
  | .boolean b => some b
  | _ => none

/-- Equality as programs see it. -/
def equal : Value → Value → Bool
  | .number x, .number y => x == y
  | .boolean a, .boolean b => a == b
  | .string s, .string t => s == t
  | .unit, .unit => true
  | _, _ => false

/-- The text that a program prints for a value. -/
def text : Value → String
  | .number x => Number.Style.display.text x
  | .boolean b => if b then "true" else "false"
  | .string s => s
  | .unit => "none"

end Value

end TreeScript
