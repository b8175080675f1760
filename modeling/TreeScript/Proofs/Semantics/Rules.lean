import TreeScript.Proofs.Semantics.Chain
import TreeScript.RuntimeError

/-!
# Rules of evaluation

`Eval n c r w c'` says that a node evaluated in the linked scopes `c` ends in `r`, a
value or the kind of an error, having printed `w`, with the scopes `c'`. There is one
rule for each way in which a node can end, and a node that loops forever has none.

Operands are evaluated from left to right. An operator on evaluated operands goes by
`Applies`, which looks at their types only then. A branch, a lap and a block run in a
scope that is entered for them, and the scopes around it are what they leave.
-/

namespace TreeScript

/-! ## Values -/

/-- Equality of kind and content, which for numbers is that of floating point. -/
inductive Same : Value → Value → Prop where
  | number {x y : Float} : (x == y) = true → Same (.number x) (.number y)
  | boolean (b : Bool) : Same (.boolean b) (.boolean b)
  | string (s : String) : Same (.string s) (.string s)
  | unit : Same .unit .unit

/-- The operator of equality decides it. -/
theorem Value.equal_iff_same {a b : Value} : a.equal b = true ↔ Same a b := by
  constructor
  · intro h
    cases a <;> cases b <;> simp only [Value.equal, beq_iff_eq, Bool.false_eq_true] at h
    · exact .number h
    · subst h; exact .boolean _
    · subst h; exact .string _
    · exact .unit
  · intro h
    cases h with
    | number h => exact h
    | boolean b => simp [Value.equal]
    | string s => simp [Value.equal]
    | unit => rfl

/-- What an operator other than a connective makes of two values. -/
inductive Applies : Operator → Value → Value → Except ErrorKind Value → Prop where
  | equal {a b : Value} : Same a b → Applies .equal a b (.ok (.boolean true))
  | unequal {a b : Value} : ¬Same a b → Applies .equal a b (.ok (.boolean false))
  | notEqual {a b : Value} : ¬Same a b → Applies .notEqual a b (.ok (.boolean true))
  | notUnequal {a b : Value} : Same a b → Applies .notEqual a b (.ok (.boolean false))
  | add (x y : Float) :
    Applies (.arithmetic .add) (.number x) (.number y) (.ok (.number (x + y)))
  | subtract (x y : Float) :
    Applies (.arithmetic .subtract) (.number x) (.number y) (.ok (.number (x - y)))
  | multiply (x y : Float) :
    Applies (.arithmetic .multiply) (.number x) (.number y) (.ok (.number (x * y)))
  | divide (x : Float) {y : Float} : ¬(y = 0.0 ∨ y = -0.0) →
    Applies (.arithmetic .divide) (.number x) (.number y) (.ok (.number (x / y)))
  | divideByZero (x : Float) {y : Float} : y = 0.0 ∨ y = -0.0 →
    Applies (.arithmetic .divide) (.number x) (.number y) (.error .divisionByZero)
  | lessEqual (x y : Float) :
    Applies (.comparison .lessEqual) (.number x) (.number y) (.ok (.boolean (x ≤ y)))
  | less (x y : Float) :
    Applies (.comparison .less) (.number x) (.number y) (.ok (.boolean (x < y)))
  | greaterEqual (x y : Float) :
    Applies (.comparison .greaterEqual) (.number x) (.number y) (.ok (.boolean (x ≥ y)))
  | greater (x y : Float) :
    Applies (.comparison .greater) (.number x) (.number y) (.ok (.boolean (x > y)))
  | arithmeticMismatch (op : Arithmetic) {a b : Value} : a.kind ≠ .number ∨ b.kind ≠ .number →
    Applies (.arithmetic op) a b (.error .typeMismatch)
  | comparisonMismatch (op : Comparison) {a b : Value} : a.kind ≠ .number ∨ b.kind ≠ .number →
    Applies (.comparison op) a b (.error .typeMismatch)

/-- An operator makes one thing of two values. -/
theorem Applies.unique {op : Operator} {a b : Value} {r r' : Except ErrorKind Value}
    (h : Applies op a b r) (h' : Applies op a b r') : r = r' := by
  cases h with
  | equal hs => cases h' with
    | equal _ => rfl
    | unequal hn => exact absurd hs hn
  | unequal hn => cases h' with
    | equal hs => exact absurd hs hn
    | unequal _ => rfl
  | notEqual hn => cases h' with
    | notEqual _ => rfl
    | notUnequal hs => exact absurd hs hn
  | notUnequal hs => cases h' with
    | notEqual hn => exact absurd hs hn
    | notUnequal _ => rfl
  | divide x hy => cases h' with
    | divide _ _ => rfl
    | divideByZero _ hz => exact absurd hz hy
    | arithmeticMismatch _ hk => simp [Value.kind] at hk
  | divideByZero x hz => cases h' with
    | divide _ hy => exact absurd hz hy
    | divideByZero _ _ => rfl
    | arithmeticMismatch _ hk => simp [Value.kind] at hk
  | add x y => cases h' <;> simp_all [Value.kind]
  | subtract x y => cases h' <;> simp_all [Value.kind]
  | multiply x y => cases h' <;> simp_all [Value.kind]
  | lessEqual x y => cases h' <;> simp_all [Value.kind]
  | less x y => cases h' <;> simp_all [Value.kind]
  | greaterEqual x y => cases h' <;> simp_all [Value.kind]
  | greater x y => cases h' <;> simp_all [Value.kind]
  | arithmeticMismatch op hk => cases h' <;> simp_all [Value.kind]
  | comparisonMismatch op hk => cases h' <;> simp_all [Value.kind]

/-- The value of the left operand that settles a connective. -/
inductive Settles : Connective → Bool → Prop where
  | and : Settles .and false
  | or : Settles .or true

/-- An operator that evaluates both its operands. -/
def Strict (op : Operator) : Prop :=
  ∀ connective, op ≠ .connective connective

/-- The boolean that a result has to be, where any other value is an error of the
given kind. -/
def truth (kind : ErrorKind) : Except ErrorKind Value → Except ErrorKind Bool
  | .ok (.boolean b) => .ok b
  | .ok _ => .error kind
  | .error k => .error k

theorem Applies.strict {op : Operator} {a b : Value} {r : Except ErrorKind Value}
    (h : Applies op a b r) : Strict op := by
  rintro connective rfl
  cases h

theorem truth_of_kind_ne {v : Value} {kind : ErrorKind} (h : v.kind ≠ .boolean) :
    truth kind (.ok v) = .error kind := by
  cases v <;> simp_all [truth, Value.kind]

theorem truth_eq_ok {kind : ErrorKind} {r : Except ErrorKind Value} {b : Bool}
    (h : truth kind r = .ok b) : r = .ok (.boolean b) := by
  cases r with
  | error k => cases h
  | ok v => cases v <;> cases h; rfl

/-! ## Nodes -/

mutual

/-- A node, evaluated in linked scopes, ends in a value or an error, prints a text, and
leaves linked scopes. -/
inductive Eval : Node → Chain → Except ErrorKind Value → String → Chain → Prop where
  | literal {v : Value} {c : Chain} : Eval (.literal v) c (.ok v) "" c
  | print {n : Node} {c c' : Chain} {v : Value} {w : String} :
    Eval n c (.ok v) w c' → Eval (.print n) c (.ok v) (w ++ (v.text ++ "\n")) c'
  | printAborts {n : Node} {c c' : Chain} {k : ErrorKind} {w : String} :
    Eval n c (.error k) w c' → Eval (.print n) c (.error k) w c'
  | leftAborts {op : Operator} {l r : Node} {c c' : Chain} {k : ErrorKind} {w : String} :
    Eval l c (.error k) w c' → Eval (.binary op l r) c (.error k) w c'
  | rightAborts {op : Operator} {l r : Node} {c c₁ c₂ : Chain} {a : Value} {k : ErrorKind}
    {w₁ w₂ : String} :
    Strict op → Eval l c (.ok a) w₁ c₁ → Eval r c₁ (.error k) w₂ c₂ →
      Eval (.binary op l r) c (.error k) (w₁ ++ w₂) c₂
  | apply {op : Operator} {l r : Node} {c c₁ c₂ : Chain} {a b : Value}
    {res : Except ErrorKind Value} {w₁ w₂ : String} :
    Eval l c (.ok a) w₁ c₁ → Eval r c₁ (.ok b) w₂ c₂ → Applies op a b res →
      Eval (.binary op l r) c res (w₁ ++ w₂) c₂
  | leftNotBoolean {op : Connective} {l r : Node} {c c' : Chain} {a : Value} {w : String} :
    Eval l c (.ok a) w c' → a.kind ≠ .boolean →
      Eval (.binary (.connective op) l r) c (.error .typeMismatch) w c'
  | settled {op : Connective} {l r : Node} {c c' : Chain} {b : Bool} {w : String} :
    Eval l c (.ok (.boolean b)) w c' → Settles op b →
      Eval (.binary (.connective op) l r) c (.ok (.boolean b)) w c'
  | unsettled {op : Connective} {l r : Node} {c c₁ c₂ : Chain} {b : Bool}
    {res : Except ErrorKind Value} {w₁ w₂ : String} :
    Eval l c (.ok (.boolean b)) w₁ c₁ → ¬Settles op b → Eval r c₁ res w₂ c₂ →
      Eval (.binary (.connective op) l r) c ((truth .typeMismatch res).map .boolean)
        (w₁ ++ w₂) c₂
  | ifThenAborts {t b : Node} {c c' : Chain} {res : Except ErrorKind Value} {k : ErrorKind}
    {w : String} :
    Eval t c res w c' → truth .conditionNotBoolean res = .error k →
      Eval (.ifThen t b) c (.error k) w c'
  | ifThenTrue {t b : Node} {c c₁ c₂ : Chain} {vars : String → Option Value}
    {res : Except ErrorKind Value} {w₁ w₂ : String} :
    Eval t c (.ok (.boolean true)) w₁ c₁ → Eval b c₁.enter res w₂ (.inner vars c₂) →
      Eval (.ifThen t b) c res (w₁ ++ w₂) c₂
  | ifThenFalse {t b : Node} {c c' : Chain} {w : String} :
    Eval t c (.ok (.boolean false)) w c' → Eval (.ifThen t b) c (.ok .unit) w c'
  | ifElseAborts {t b e : Node} {c c' : Chain} {res : Except ErrorKind Value} {k : ErrorKind}
    {w : String} :
    Eval t c res w c' → truth .conditionNotBoolean res = .error k →
      Eval (.ifElse t b e) c (.error k) w c'
  | ifElseTrue {t b e : Node} {c c₁ c₂ : Chain} {vars : String → Option Value}
    {res : Except ErrorKind Value} {w₁ w₂ : String} :
    Eval t c (.ok (.boolean true)) w₁ c₁ → Eval b c₁.enter res w₂ (.inner vars c₂) →
      Eval (.ifElse t b e) c res (w₁ ++ w₂) c₂
  | ifElseFalse {t b e : Node} {c c₁ c₂ : Chain} {vars : String → Option Value}
    {res : Except ErrorKind Value} {w₁ w₂ : String} :
    Eval t c (.ok (.boolean false)) w₁ c₁ → Eval e c₁.enter res w₂ (.inner vars c₂) →
      Eval (.ifElse t b e) c res (w₁ ++ w₂) c₂
  | loopAborts {t b : Node} {c c' : Chain} {res : Except ErrorKind Value} {k : ErrorKind}
    {w : String} :
    Eval t c res w c' → truth .conditionNotBoolean res = .error k →
      Eval (.whileLoop t b) c (.error k) w c'
  | loopEnds {t b : Node} {c c' : Chain} {w : String} :
    Eval t c (.ok (.boolean false)) w c' → Eval (.whileLoop t b) c (.ok .unit) w c'
  | lapAborts {t b : Node} {c c₁ c₂ : Chain} {vars : String → Option Value} {k : ErrorKind}
    {w₁ w₂ : String} :
    Eval t c (.ok (.boolean true)) w₁ c₁ → Eval b c₁.enter (.error k) w₂ (.inner vars c₂) →
      Eval (.whileLoop t b) c (.error k) (w₁ ++ w₂) c₂
  | lap {t b : Node} {c c₁ c₂ c₃ : Chain} {vars : String → Option Value} {v : Value}
    {res : Except ErrorKind Value} {w₁ w₂ w₃ : String} :
    Eval t c (.ok (.boolean true)) w₁ c₁ → Eval b c₁.enter (.ok v) w₂ (.inner vars c₂) →
      Eval (.whileLoop t b) c₂ res w₃ c₃ →
        Eval (.whileLoop t b) c res (w₁ ++ (w₂ ++ w₃)) c₃
  | block {ns : List Node} {c c' : Chain} {vars : String → Option Value}
    {res : Except ErrorKind Value} {w : String} :
    EvalAll .unit ns c.enter res w (.inner vars c') → Eval (.block ns) c res w c'
  | var {x : String} {c : Chain} : Eval (.var x) c (.ok .unit) "" (c.declare x)
  | identifier {x : String} {c : Chain} {v : Value} :
    c.lookup x = some v → Eval (.identifier x) c (.ok v) "" c
  | undefined {x : String} {c : Chain} :
    c.lookup x = none → Eval (.identifier x) c (.error .undefinedVariable) "" c
  | assignAborts {t n : Node} {c c' : Chain} {k : ErrorKind} {w : String} :
    Eval n c (.error k) w c' → Eval (.assign t n) c (.error k) w c'
  | assign {x : String} {n : Node} {c c₁ c₂ : Chain} {v : Value} {w : String} :
    Eval n c (.ok v) w c₁ → c₁.rebind x v = some c₂ →
      Eval (.assign (.identifier x) n) c (.ok v) w c₂
  | assignUndefined {x : String} {n : Node} {c c' : Chain} {v : Value} {w : String} :
    Eval n c (.ok v) w c' → c'.rebind x v = none →
      Eval (.assign (.identifier x) n) c (.error .undefinedVariable) w c'
  | assignNoTarget {t n : Node} {c c' : Chain} {v : Value} {w : String} :
    Eval n c (.ok v) w c' → (∀ x, t ≠ .identifier x) →
      Eval (.assign t n) c (.error .invalidAssignmentTarget) w c'
  | inspect {n : Node} {c c' : Chain} {res : Except ErrorKind Value} {w : String} :
    Eval n c res w c' → Eval (.inspect n) c res w c'

/-- Nodes in turn, after a value that is the result if there are none. -/
inductive EvalAll :
    Value → List Node → Chain → Except ErrorKind Value → String → Chain → Prop where
  | nil {v : Value} {c : Chain} : EvalAll v [] c (.ok v) "" c
  | consAborts {v : Value} {n : Node} {ns : List Node} {c c' : Chain} {k : ErrorKind}
    {w : String} :
    Eval n c (.error k) w c' → EvalAll v (n :: ns) c (.error k) w c'
  | cons {v u : Value} {n : Node} {ns : List Node} {c c₁ c₂ : Chain}
    {res : Except ErrorKind Value} {w₁ w₂ : String} :
    Eval n c (.ok u) w₁ c₁ → EvalAll u ns c₁ res w₂ c₂ →
      EvalAll v (n :: ns) c res (w₁ ++ w₂) c₂

end

end TreeScript
