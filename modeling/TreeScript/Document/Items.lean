import TreeScript.Document.Skip

/-!
# Scalars, lists and variants

The readers for the plain parts of a document: scalars of a wanted type, the
commas of lists and objects, and variants. A variant is a bare name, or an
object with the name as its only key and the content as its value. A reader
that meets something else reads on far enough to say what it met.
-/

namespace TreeScript.Document

/-! ## Scalars -/

/-- What stands at the front, if it is well formed as far as it matters. -/
def found (bound : Nat) : List UInt8 → Except Error Found
  | [] => .error .endInValue
  | Mark.lowerN :: s => do
    let _ ← word restOfNull s
    return .null
  | Mark.lowerT :: s => do
    let _ ← word restOfTrue s
    return .boolean true
  | Mark.lowerF :: s => do
    let _ ← word restOfFalse s
    return .boolean false
  | Mark.quote :: s => do
    let (string, _) ← text bound s
    return .string string
  | Mark.listStart :: _ => .ok .sequence
  | Mark.objectStart :: _ => .ok .map
  | b :: s =>
    if b = Mark.minus || isDigit b then do
      let (quantity, _) ← quantity (b :: s)
      return quantity.found
    else .error .expectedValue

/-- Rejects what stands at the front. -/
def mismatch {α : Type} (bound : Nat) (expected : Expected) (s : List UInt8) :
    Except Error α := do
  let found ← found bound s
  throw (.invalidType found expected)

/-- Reads `null`. -/
def null (bound : Nat) : Reader Unit := fun s =>
  match skipBlanks s with
  | Mark.lowerN :: s => do return ((), ← word restOfNull s)
  | s => mismatch bound .unit s

def boolean (bound : Nat) : Reader Bool := fun s =>
  match skipBlanks s with
  | Mark.lowerT :: s => do return (true, ← word restOfTrue s)
  | Mark.lowerF :: s => do return (false, ← word restOfFalse s)
  | s => mismatch bound .boolean s

def string (bound : Nat) : Reader String := fun s =>
  match skipBlanks s with
  | Mark.quote :: s => text bound s
  | s => mismatch bound .string s

def real (bound : Nat) : Reader Float := fun s =>
  match skipBlanks s with
  | [] => .error .endInValue
  | b :: s =>
    if b = Mark.minus || isDigit b then do
      let (quantity, s) ← quantity (b :: s)
      return (quantity.toFloat, s)
    else mismatch bound .real (b :: s)

/-! ## Commas -/

/-- Whether another item of a list follows. If so, what is left starts with it,
and otherwise with the end of the list. -/
def moreItems (isFirst : Bool) : Reader Bool := fun s =>
  match skipBlanks s with
  | [] => .error .endInList
  | Mark.listEnd :: s => .ok (false, Mark.listEnd :: s)
  | b :: s =>
    if isFirst then .ok (true, b :: s)
    else if b = Mark.comma then
      match skipBlanks s with
      | [] => .error .endInValue
      | Mark.listEnd :: _ => .error .trailingComma
      | s => .ok (true, s)
    else .error .expectedListCommaOrEnd

/-- Passes the end of a list of which all wanted items have been read. -/
def endOfList (s : List UInt8) : Except Error (List UInt8) :=
  match skipBlanks s with
  | [] => .error .endInList
  | Mark.listEnd :: s => .ok s
  | Mark.comma :: s =>
    match skipBlanks s with
    | Mark.listEnd :: _ => .error .trailingComma
    | _ => .error .trailingCharacters
  | _ => .error .trailingCharacters

/-- The next key of an object, or `none` at its end, which is passed. -/
def nextKey (bound : Nat) (isFirst : Bool) : Reader (Option String) := fun s =>
  match skipBlanks s with
  | [] => .error .endInObject
  | Mark.objectEnd :: s => .ok (none, s)
  | b :: s =>
    if isFirst then
      if b = Mark.quote then do
        let (key, s) ← text bound s
        return (some key, s)
      else .error .keyNotString
    else if b = Mark.comma then
      match skipBlanks s with
      | [] => .error .endInValue
      | Mark.quote :: s => do
        let (key, s) ← text bound s
        return (some key, s)
      | Mark.objectEnd :: _ => .error .trailingComma
      | _ => .error .keyNotString
    else .error .expectedObjectCommaOrEnd

/-! ## Variants -/

/-- The name at the start of a variant with content. -/
def variantName (bound : Nat) : Reader String := fun s =>
  match skipBlanks s with
  | [] => .error .endInObject
  | Mark.objectEnd :: _ => .error .expectedValue
  | Mark.quote :: s => text bound s
  | _ => .error .keyNotString

/-- Passes the end of a variant with content. -/
def endOfVariant (s : List UInt8) : Except Error (List UInt8) :=
  match skipBlanks s with
  | [] => .error .endInObject
  | Mark.objectEnd :: s => .ok s
  | _ => .error .expectedValue

/-- The variant that has a name, out of those that are known. -/
def choose {τ : Type} (known : List τ) (nameOf : τ → String) (name : String) :
    Except Error τ :=
  match known.find? (nameOf · == name) with
  | some variant => .ok variant
  | none => .error (.unknownVariant name (known.map nameOf))

/-- Reads a variant. `bare` is what its name alone stands for, and `content`
reads what an object has under the name; it is `none` where no further bracket
may be opened. -/
def variant {τ α : Type} (bound : Nat) (known : List τ) (nameOf : τ → String)
    (bare : τ → Except Error α) (content : Option (τ → Reader α)) : Reader α := fun s =>
  match skipBlanks s with
  | [] => .error .endInValue
  | Mark.objectStart :: s =>
    match content with
    | none => .error .tooDeep
    | some content => do
      let (name, s) ← variantName bound s
      let variant ← choose known nameOf name
      let s ← colon s
      let (result, s) ← content variant s
      let s ← endOfVariant s
      return (result, s)
  | Mark.quote :: s => do
    let (name, s) ← text bound s
    let variant ← choose known nameOf name
    let result ← bare variant
    return (result, s)
  | _ => .error .expectedValue

end TreeScript.Document
