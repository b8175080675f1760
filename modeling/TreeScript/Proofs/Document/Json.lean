import TreeScript.Proofs.Document.Numerals

/-!
# The syntax of documents

A `Json` is a document as it is written: its strings are the pieces that stand between
the quotes, its numbers are the figures that stand there, and its members are in their
order. `Denotes` says which characters the pieces of a string stand for. Not all strings
denote something, since half a surrogate pair stands for no character.

`Json.tokens` lists the tokens of a document, and `Spread` puts blanks between them. So
`Spread j.tokens cs` says that the text `cs` is one way to write `j`.
-/

namespace TreeScript.Document

/-! ## Strings -/

/-- A digit to base sixteen, in one of two cases. -/
structure HexDigit where
  value : Fin 16
  capital : Bool
  deriving DecidableEq

def HexDigit.char (d : HexDigit) : Char :=
  if d.capital then (Nat.digitChar d.value).toUpper else Nat.digitChar d.value

/-- The four digits of a code unit. -/
structure CodeUnit where
  a : HexDigit
  b : HexDigit
  c : HexDigit
  d : HexDigit
  deriving DecidableEq

namespace CodeUnit

def digits (u : CodeUnit) : List HexDigit :=
  [u.a, u.b, u.c, u.d]

def value (u : CodeUnit) : Nat :=
  ((u.a.value * 16 + u.b.value) * 16 + u.c.value) * 16 + u.d.value

end CodeUnit

/-- An escape by one letter. -/
inductive Letter where
  | quote
  | backslash
  | slash
  | b
  | f
  | n
  | r
  | t
  deriving DecidableEq

namespace Letter

/-- What stands behind the backslash. -/
def char : Letter → Char
  | .quote => '"'
  | .backslash => '\\'
  | .slash => '/'
  | .b => 'b'
  | .f => 'f'
  | .n => 'n'
  | .r => 'r'
  | .t => 't'

/-- What the escape stands for. -/
def denoted : Letter → Char
  | .quote => '"'
  | .backslash => '\\'
  | .slash => '/'
  | .b => '\x08'
  | .f => '\x0c'
  | .n => '\n'
  | .r => '\r'
  | .t => '\t'

end Letter

/-- A piece of a string, as it stands between the quotes. -/
inductive Piece where
  /-- A character that is no control, quote or backslash. -/
  | plain (c : Char) (h : 0x20 ≤ c.toNat ∧ c ≠ '"' ∧ c ≠ '\\')
  | letter (l : Letter)
  | unit (u : CodeUnit)
  deriving DecidableEq

def Piece.chars : Piece → List Char
  | .plain c _ => [c]
  | .letter l => ['\\', l.char]
  | .unit u => '\\' :: 'u' :: u.digits.map HexDigit.char

/-- The characters that the pieces of a string stand for. -/
inductive Denotes : List Piece → List Char → Prop where
  | nil : Denotes [] []
  | plain {ps : List Piece} {cs : List Char} (c : Char)
    (h : 0x20 ≤ c.toNat ∧ c ≠ '"' ∧ c ≠ '\\') : Denotes ps cs →
      Denotes (.plain c h :: ps) (c :: cs)
  | letter {ps : List Piece} {cs : List Char} (l : Letter) : Denotes ps cs →
      Denotes (.letter l :: ps) (l.denoted :: cs)
  | unit {ps : List Piece} {cs : List Char} {c : Char} {u : CodeUnit} : u.value = c.toNat →
      Denotes ps cs → Denotes (.unit u :: ps) (c :: cs)
  /-- Two surrogates. -/
  | pair {ps : List Piece} {cs : List Char} {c : Char} {high low : CodeUnit} :
      0x10000 ≤ c.toNat → high.value = 0xd800 + (c.toNat - 0x10000) / 0x400 →
      low.value = 0xdc00 + (c.toNat - 0x10000) % 0x400 → Denotes ps cs →
        Denotes (.unit high :: .unit low :: ps) (c :: cs)

/-! ## Numbers -/

/-- A number as it is written. -/
structure Figure where
  spelling : Spelling
  wellFormed : spelling.WellFormed
  /-- Whether the power of ten has a capital letter. -/
  capital : Bool
  /-- Whether a power of ten has a sign also if it is not negative. -/
  signed : Bool

namespace Figure

/-- The power of ten. -/
def exponentChars (f : Figure) : List Char :=
  match f.spelling.exponent with
  | none => []
  | some (negative, digits) => (if f.capital then 'E' else 'e') ::
      ((if negative then ['-'] else if f.signed then ['+'] else []) ++ digits)

def chars (f : Figure) : List Char :=
  (if f.spelling.negative then ['-'] else []) ++
    (f.spelling.whole ++ (f.spelling.fractionChars ++ f.exponentChars))

end Figure

/-! ## Documents -/

inductive Json where
  | null
  | boolean (b : Bool)
  | number (f : Figure)
  | string (ps : List Piece)
  | list (items : List Json)
  | object (members : List (List Piece × Json))

inductive Symbol where
  | comma
  | colon
  | listStart
  | listEnd
  | objectStart
  | objectEnd
  deriving DecidableEq

def Symbol.char : Symbol → Char
  | .comma => ','
  | .colon => ':'
  | .listStart => '['
  | .listEnd => ']'
  | .objectStart => '\x7b'
  | .objectEnd => '\x7d'

/-- What blanks may stand between. -/
inductive Token where
  | symbol (m : Symbol)
  | null
  | boolean (b : Bool)
  | figure (f : Figure)
  | string (ps : List Piece)

def Token.chars : Token → List Char
  | .symbol m => [m.char]
  | .null => ['n', 'u', 'l', 'l']
  | .boolean true => ['t', 'r', 'u', 'e']
  | .boolean false => ['f', 'a', 'l', 's', 'e']
  | .figure f => f.chars
  | .string ps => '"' :: (ps.flatMap Piece.chars ++ ['"'])

/-- The comma before an item that is not the first. -/
def separator (isFirst : Bool) : List Token :=
  if isFirst then [] else [.symbol .comma]

namespace Json

mutual

/-- The tokens of a document. -/
def tokens : Json → List Token
  | .null => [.null]
  | .boolean b => [.boolean b]
  | .number f => [.figure f]
  | .string ps => [.string ps]
  | .list items => .symbol .listStart :: itemTokens true items
  | .object members => .symbol .objectStart :: memberTokens true members

/-- The tokens of items, and of the end of their list. -/
def itemTokens (isFirst : Bool) : List Json → List Token
  | [] => [.symbol .listEnd]
  | j :: js => separator isFirst ++ (tokens j ++ itemTokens false js)

/-- The tokens of members, and of the end of their object. -/
def memberTokens (isFirst : Bool) : List (List Piece × Json) → List Token
  | [] => [.symbol .objectEnd]
  | (key, j) :: members => separator isFirst ++
      .string key :: .symbol .colon :: (tokens j ++ memberTokens false members)

end

mutual

/-- How many brackets are open at the deepest place of a document. -/
def nesting : Json → Nat
  | .list items => nestingOfItems items + 1
  | .object members => nestingOfMembers members + 1
  | _ => 0

def nestingOfItems : List Json → Nat
  | [] => 0
  | j :: js => max (nesting j) (nestingOfItems js)

def nestingOfMembers : List (List Piece × Json) → Nat
  | [] => 0
  | (_, j) :: members => max (nesting j) (nestingOfMembers members)

end

end Json

/-- Tokens in a text, with blanks before, between and after them. -/
inductive Spread : List Token → List Char → Prop where
  | nil : Spread [] []
  | blank {ts : List Token} {cs : List Char} {c : Char} : c ∈ [' ', '\t', '\n', '\r'] →
      Spread ts cs → Spread ts (c :: cs)
  | token {ts : List Token} {cs : List Char} (t : Token) : Spread ts cs →
      Spread (t :: ts) (t.chars ++ cs)

end TreeScript.Document
