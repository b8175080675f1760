import TreeScript.Proofs.Runs

/-!
# Calls

Evaluating a node calls on its children. A `Call` is the place of a child and the machine
that its evaluation starts from, and a `Calling` is an action that keeps a list of its
calls. `Node.work` is what a node does as a `Calling`, with the evaluation of its children
given, and `Node.evaluate_eq_work` says that evaluation does just this between the two
records that surround it. So `Node.calls` are the calls of a run.

A relation of such actions is a `Calling.Congruence` if it passes from the parts to the
whole, and then it holds of the work of every node (`Calling.Congruence.work`). What may
fail is bounded by the kind of the node (`Node.Kind.raises`). For a relation that does
not look at the calls, `Calling.Congruence.evaluate` goes on to whole trees.
-/

namespace TreeScript

/-! ## Children -/

/-- The children of a node, from left to right. -/
def Node.children : Node → List Node
  | .literal _ => []
  | .print inner => [inner]
  | .binary _ left right => [left, right]
  | .ifThen test body => [test, body]
  | .ifElse test body otherwise => [test, body, otherwise]
  | .whileLoop test body => [test, body]
  | .block nodes => nodes
  | .var _ => []
  | .identifier _ => []
  | .assign target value => [target, value]
  | .inspect inner => [inner]

/-- Induction with a hypothesis for every child. -/
theorem Node.induct_children {motive : Node → Prop}
    (h : ∀ n : Node, (∀ c ∈ n.children, motive c) → motive n) (n : Node) : motive n := by
  induction n with
  | _ => exact h _ (by simp_all [Node.children])

/-- The kinds of error that a node of a kind may raise itself. -/
def Node.Kind.raises : Node.Kind → ErrorKind → Bool
  | .binary, .typeMismatch => true
  | .binary, .divisionByZero => true
  | .identifier, .undefinedVariable => true
  | .assign, .undefinedVariable => true
  | .assign, .invalidAssignmentTarget => true
  | .conditional, .conditionNotBoolean => true
  | .whileLoop, .conditionNotBoolean => true
  | .print, .output => true
  | _, _ => false

/-- A record that a node makes about its own work, and not about a scope or about the
start or end of an evaluation. -/
def Record.Inner : Record → Prop
  | .scopePushed _ => False
  | .scopePopped _ => False
  | .nodeEntered _ => False
  | .nodeLeft .. => False
  | .errorCreated _ => False
  | _ => True

/-! ## Actions with their calls -/

/-- A call of a child: its place, and the machine that its evaluation starts from. -/
structure Call where
  place : Nat
  start : Machine

/-- An action with the calls that it makes from a machine, in order. -/
structure Calling (α : Type) where
  run : Action α
  calls : Machine → List Call

namespace Calling

variable {α β : Type}

/-- An action that makes no calls. -/
def silent (x : Action α) : Calling α :=
  ⟨x, fun _ => []⟩

/-- The evaluation of the child at a place. -/
def call (child : Nat → Action Value) (place : Nat) : Calling Value :=
  ⟨child place, fun m => [⟨place, m⟩]⟩

/-- Goes on with the result, and with the calls, unless there is no result. -/
def bind (x : Calling α) (f : α → Calling β) : Calling β where
  run := x.run >>= fun a => (f a).run
  calls m := x.calls m ++ match x.run m with
    | some (.ok a, m₁) => (f a).calls m₁
    | _ => []

instance : Monad Calling where
  pure a := silent (Pure.pure a)
  bind := bind

def inScope (x : Calling α) : Calling α :=
  ⟨Action.inScope x.run, fun m => x.calls m.opened⟩

def repeatWhile (condition : Calling Bool) (body : Calling Unit) : Nat → Nat → Calling Nat
  | 0, _ => silent fun _ => none
  | laps + 1, count => do
    if ← condition then
      body
      repeatWhile condition body laps (count + 1)
    else
      return count

def condition (construct : Construct) (test : Calling Value) : Calling Bool := do
  let value ← test
  silent (Action.ofOption (.conditionNotBoolean construct value.kind) value.asBoolean?)

def connective (op : Connective) (left : Value) (right : Calling Value) : Calling Value := do
  let a ← silent (Action.booleanOperand op left)
  if a = op.settledBy then
    silent (Action.note (.shortCircuit op))
    return .boolean a
  else
    let value ← right
    let b ← silent (Action.booleanOperand op value)
    return .boolean b

def binary (op : Operator) (left right : Calling Value) : Calling Value := do
  silent (Action.note (.operation op))
  let a ← left
  match op with
  | .connective op => connective op a right
  | .equal => do
    let b ← right
    return .boolean (a.equal b)
  | .notEqual => do
    let b ← right
    return .boolean (!a.equal b)
  | .arithmetic op => do
    let b ← right
    silent (Action.arithmetic op a b)
  | .comparison op => do
    let b ← right
    silent (Action.comparison op a b)

/-- Actions in turn. The value is the last one's, or the given one if there are none. -/
def inTurn (last : Value) : List (Calling Value) → Calling Value
  | [] => return last
  | x :: xs => do
    let value ← x
    inTurn value xs

@[simp] theorem run_pure (a : α) : (Pure.pure a : Calling α).run = Pure.pure a :=
  rfl

@[simp] theorem run_bind (x : Calling α) (f : α → Calling β) :
    (x >>= f).run = x.run >>= fun a => (f a).run :=
  rfl

@[simp] theorem run_silent (x : Action α) : (silent x).run = x :=
  rfl

@[simp] theorem run_call (child : Nat → Action Value) (place : Nat) :
    (call child place).run = child place :=
  rfl

@[simp] theorem run_inScope (x : Calling α) : (inScope x).run = Action.inScope x.run :=
  rfl

@[simp] theorem run_ite {p : Prop} [Decidable p] (x y : Calling α) :
    (if p then x else y).run = if p then x.run else y.run :=
  apply_ite run p x y

/-- Actions without calls make none in sequence either. -/
theorem silent_bind (x : Action α) (f : α → Action β) :
    silent (x >>= f) = silent x >>= fun a => silent (f a) := by
  have hcalls : ∀ m, ([] : List Call) = (silent x >>= fun a => silent (f a)).calls m := by
    intro m
    show [] = [] ++ match x m with
      | some (.ok a, m₁) => (silent (f a)).calls m₁
      | _ => []
    split <;> rfl
  exact congrArg (Calling.mk (x >>= f)) (funext hcalls)

theorem run_repeatWhile (c : Calling Bool) (b : Calling Unit) : ∀ laps count,
    (repeatWhile c b laps count).run = Action.repeatWhile c.run b.run laps count
  | 0, _ => rfl
  | laps + 1, count => by
    rw [Action.repeatWhile_succ, repeatWhile, run_bind]
    simp only [run_ite, run_bind, run_repeatWhile c b laps, run_pure]

theorem run_connective (op : Connective) (left : Value) (x : Calling Value) :
    (connective op left x).run = Action.connective op left x.run := by
  simp only [connective, Action.connective, run_bind, run_ite, run_silent, run_pure]
  rfl

theorem run_binary (op : Operator) (x y : Calling Value) :
    (binary op x y).run = Action.binary op x.run y.run := by
  cases op with
  | connective op =>
    show (Action.note _ >>= fun _ => x.run >>= fun a => (connective op a y).run) = _
    simp only [run_connective]
    rfl
  | _ => rfl

theorem calls_bind_of_ok {x : Calling α} {f : α → Calling β} {m m₁ : Machine} {a : α}
    (h : x.run m = some (.ok a, m₁)) : (x >>= f).calls m = x.calls m ++ (f a).calls m₁ := by
  show x.calls m ++ _ = _
  rw [h]

/-- The calls of the first part are calls of the whole. -/
theorem calls_subset_bind (x : Calling α) (f : α → Calling β) (m : Machine) :
    x.calls m ⊆ (x >>= f).calls m :=
  List.subset_append_left _ _

end Calling

/-! ## Nodes -/

namespace Node

open Calling

/-- What evaluating a node does between the records that surround it, with the evaluation
of the child at each place given. -/
def work (laps : Nat) (child : Nat → Action Value) : Node → Calling Value
  | .literal value => return value
  | .print _ => do
    let value ← call child 0
    silent (Action.print value)
    silent (Action.note (.printed value))
    return value
  | .binary op _ _ => Calling.binary op (call child 0) (call child 1)
  | .ifThen _ _ => do
    if ← condition .branch (call child 0) then
      silent (Action.note .conditionTrue)
      inScope (call child 1)
    else
      return .unit
  | .ifElse _ _ _ => do
    if ← condition .branch (call child 0) then
      silent (Action.note .conditionTrue)
      inScope (call child 1)
    else
      silent (Action.note .conditionFalse)
      inScope (call child 2)
  | .whileLoop _ _ => do
    let count ← repeatWhile (condition .loop (call child 0))
      (inScope do let _ ← call child 1) laps 0
    silent (Action.note (.loopExited count))
    return .unit
  | .block nodes => do
    silent (Action.note (.blockEntered nodes.length))
    inScope (inTurn .unit ((List.range nodes.length).map (call child)))
  | .var name => do
    silent (Action.declare name)
    silent (Action.note (.declared name))
    return .unit
  | .identifier name => silent (Action.get name)
  | .assign target _ => do
    let value ← call child 1
    silent (Action.assignTo target value)
  | .inspect _ => call child 0

/-- The evaluation of the child at a place, which is cut off if there is none. -/
def childEvaluation (n : Node) (laps : Nat) (place : Nat) : Action Value :=
  match n.children[place]? with
  | some child => child.evaluate laps
  | none => fun _ => none

/-- The machine with which a node starts its work. -/
def entered (n : Node) (m : Machine) : Machine :=
  { m with journal := m.journal.note (.nodeEntered n.kind) }

/-- The calls that evaluating a node makes itself, in order. -/
def calls (laps : Nat) (n : Node) (m : Machine) : List Call :=
  (n.work laps (n.childEvaluation laps)).calls (n.entered m)

/-- The test of a loop, with its call. -/
def testing (laps : Nat) (test body : Node) : Calling Bool :=
  condition .loop (call ((whileLoop test body).childEvaluation laps) 0)

/-- One lap of a loop, with its call. -/
def lapping (laps : Nat) (test body : Node) : Calling Unit :=
  inScope do let _ ← call ((whileLoop test body).childEvaluation laps) 1

/-- A loop with some laps to spare and some taken. -/
def looping (laps : Nat) (test body : Node) (spare count : Nat) : Calling Nat :=
  repeatWhile (testing laps test body) (lapping laps test body) spare count

theorem run_inTurn_evaluate (laps : Nat) (nodes : List Node) : ∀ (rest : List Node) (k : Nat)
    (last : Value), nodes.drop k = rest →
      (inTurn last ((List.range' k rest.length).map
        (call ((Node.block nodes).childEvaluation laps)))).run = evaluateAll laps last rest
  | [], _, _, _ => rfl
  | node :: rest, k, last, h => by
    have hnode : nodes[k]? = some node := by
      rw [← List.head?_drop, h]
      rfl
    have hrest : nodes.drop (k + 1) = rest := by
      rw [← List.tail_drop, h]
      rfl
    have hchild : (Node.block nodes).childEvaluation laps k = node.evaluate laps := by
      simp only [childEvaluation, children, hnode]
    rw [List.length_cons, List.range'_succ, List.map_cons, inTurn, run_bind, run_call, hchild,
      evaluateAll]
    exact congrArg _ (funext fun value => run_inTurn_evaluate laps nodes rest (k + 1) value hrest)

/-- Evaluating a node is its work between the records that surround it. -/
theorem evaluate_eq_work (laps : Nat) (n : Node) : n.evaluate laps =
    Action.visiting n.kind (n.work laps (n.childEvaluation laps)).run := by
  cases n with
  | binary op left right => rw [work, run_binary, evaluate]; rfl
  | ifThen test body =>
    simp only [work, run_bind, run_ite]
    rw [evaluate]; rfl
  | ifElse test body otherwise =>
    simp only [work, run_bind, run_ite]
    rw [evaluate]; rfl
  | whileLoop test body =>
    simp only [work, run_bind, run_repeatWhile]
    rw [evaluate]; rfl
  | block nodes =>
    have hall := run_inTurn_evaluate laps nodes nodes 0 .unit rfl
    rw [← List.range_eq_range'] at hall
    simp only [work, run_bind, run_inScope, hall]
    rw [evaluate]; rfl
  | _ => rw [evaluate]; rfl

/-- A node starts its work with the record that it is entered, and what comes after the
work is the record that it is left. -/
theorem evaluate_eq_bind (laps : Nat) (n : Node) (m : Machine) : n.evaluate laps m =
    ((n.work laps (n.childEvaluation laps)).run >>= fun value =>
      Action.note (.nodeLeft n.kind value) >>= fun _ => Pure.pure value) (n.entered m) := by
  rw [evaluate_eq_work]
  rfl

/-- A run of a node is a run of its work, which then is over with an error, or is
followed by the record that the node is left. -/
theorem evaluate_eq_some_iff {laps : Nat} {n : Node} {m m' : Machine}
    {r : Except RuntimeError Value} : n.evaluate laps m = some (r, m') ↔
      (∃ e, (n.work laps (n.childEvaluation laps)).run (n.entered m) = some (.error e, m') ∧
        r = .error e) ∨
      ∃ value m₁, (n.work laps (n.childEvaluation laps)).run (n.entered m) =
        some (.ok value, m₁) ∧ r = .ok value ∧
          m' = { m₁ with journal := m₁.journal.note (.nodeLeft n.kind value) } := by
  rw [evaluate_eq_bind, Action.bind_eq_some_iff]
  refine or_congr Iff.rfl (exists_congr fun value => exists_congr fun m₁ =>
    and_congr_right fun _ => ?_)
  show some (Except.ok value, _) = some (r, m') ↔ _
  rw [Option.some.injEq, Prod.mk.injEq]
  exact and_congr eq_comm eq_comm

end Node

/-! ## Congruences -/

namespace Calling

/-- A relation of actions that passes from the parts to the whole. Of the errors, it has
to hold of the allowed ones. -/
structure Congruence (allowed : RuntimeError → Prop)
    (P : ∀ {α : Type}, Calling α → Calling α → Prop) : Prop where
  pure : ∀ {α : Type} (a : α), P (Pure.pure a) (Pure.pure a)
  bind : ∀ {α β : Type} {x y : Calling α} {f g : α → Calling β}, P x y →
    (∀ a, P (f a) (g a)) → P (x >>= f) (y >>= g)
  inScope : ∀ {α : Type} {x y : Calling α}, P x y → P (inScope x) (inScope y)
  note : ∀ r : Record, r.Inner → P (silent (Action.note r)) (silent (Action.note r))
  fail : ∀ {α : Type} (e : RuntimeError), allowed e →
    P (silent (Action.fail e : Action α)) (silent (Action.fail e))
  cutOff : ∀ {α : Type}, P (silent fun _ => none : Calling α) (silent fun _ => none)
  declare : ∀ name, P (silent (Action.declare name)) (silent (Action.declare name))
  print : ∀ value, (∀ reason, allowed (.outputFailed reason)) →
    P (silent (Action.print value)) (silent (Action.print value))
  get : ∀ name, allowed (.undefinedVariable name) →
    P (silent (Action.get name)) (silent (Action.get name))
  assign : ∀ name value, allowed (.undefinedVariable name) →
    P (silent (Action.assign name value)) (silent (Action.assign name value))

namespace Congruence

variable {allowed : RuntimeError → Prop} {P : ∀ {α : Type}, Calling α → Calling α → Prop}
  (hP : Congruence allowed P)

include hP

theorem ofOption {α : Type} {e : RuntimeError} (he : allowed e) (a : Option α) :
    P (silent (Action.ofOption e a)) (silent (Action.ofOption e a)) := by
  cases a with
  | none => exact hP.fail e he
  | some a => exact hP.pure a

theorem repeatWhile {c c' : Calling Bool} {b b' : Calling Unit} (hc : P c c') (hb : P b b') :
    ∀ laps count, P (Calling.repeatWhile c b laps count) (Calling.repeatWhile c' b' laps count)
  | 0, _ => hP.cutOff
  | laps + 1, count => by
    refine hP.bind hc fun holds => ?_
    cases holds with
    | false => exact hP.pure count
    | true => exact hP.bind hb fun _ => repeatWhile hc hb laps (count + 1)

theorem condition {x y : Calling Value} {construct : Construct}
    (he : ∀ found, allowed (.conditionNotBoolean construct found)) (h : P x y) :
    P (Calling.condition construct x) (Calling.condition construct y) :=
  hP.bind h fun _ => hP.ofOption (he _) _

theorem numberOperands {op : Operator} (he : ∀ a b, allowed (.notNumbers op a b))
    (left right : Value) : P (silent (Action.numberOperands op left right))
      (silent (Action.numberOperands op left right)) := by
  unfold Action.numberOperands
  rw [silent_bind]
  refine hP.bind (hP.note _ trivial) fun _ => ?_
  split
  · exact hP.pure _
  · exact hP.fail _ (he _ _)

theorem arithmetic {op : Arithmetic} (he : ∀ a b, allowed (.notNumbers (.arithmetic op) a b))
    (hzero : allowed .divisionByZero) (left right : Value) :
    P (silent (Action.arithmetic op left right)) (silent (Action.arithmetic op left right)) := by
  unfold Action.arithmetic
  rw [silent_bind]
  refine hP.bind (hP.numberOperands he left right) fun ⟨a, b⟩ => ?_
  dsimp only
  split
  · rw [silent_bind]
    exact hP.bind (hP.note _ trivial) fun _ => hP.fail _ hzero
  · exact hP.pure _

theorem comparison {op : Comparison} (he : ∀ a b, allowed (.notNumbers (.comparison op) a b))
    (left right : Value) :
    P (silent (Action.comparison op left right)) (silent (Action.comparison op left right)) := by
  unfold Action.comparison
  rw [silent_bind]
  exact hP.bind (hP.numberOperands he left right) fun _ => hP.pure _

theorem connective {x y : Calling Value} {op : Connective}
    (he : ∀ found, allowed (.notBoolean op found)) (left : Value) (h : P x y) :
    P (Calling.connective op left x) (Calling.connective op left y) := by
  refine hP.bind (hP.ofOption (he _) _) fun a => ?_
  split
  · exact hP.bind (hP.note _ trivial) fun _ => hP.pure _
  · exact hP.bind h fun value => hP.bind (hP.ofOption (he _) _) fun _ => hP.pure _

theorem binary {x x' y y' : Calling Value} {op : Operator}
    (he : ∀ e : RuntimeError, Node.Kind.binary.raises e.kind = true → allowed e)
    (hl : P x x') (hr : P y y') : P (Calling.binary op x y) (Calling.binary op x' y') := by
  refine hP.bind (hP.note _ trivial) fun _ => hP.bind hl fun a => ?_
  cases op with
  | arithmetic op =>
    exact hP.bind hr fun b => hP.arithmetic (fun _ _ => he _ rfl) (he _ rfl) a b
  | comparison op => exact hP.bind hr fun b => hP.comparison (fun _ _ => he _ rfl) a b
  | equal => exact hP.bind hr fun b => hP.pure _
  | notEqual => exact hP.bind hr fun b => hP.pure _
  | connective op => exact hP.connective (fun _ => he _ rfl) a hr

theorem assignTo (he : ∀ e : RuntimeError, Node.Kind.assign.raises e.kind = true → allowed e)
    (target : Node) (value : Value) : P (silent (Action.assignTo target value))
      (silent (Action.assignTo target value)) := by
  unfold Action.assignTo
  split
  · rw [silent_bind]
    refine hP.bind (hP.assign _ value (he _ rfl)) fun _ => ?_
    rw [silent_bind]
    exact hP.bind (hP.note _ trivial) fun _ => hP.pure _
  · exact hP.fail _ (he _ rfl)

theorem inTurn {child child' : Nat → Action Value}
    (h : ∀ place, P (call child place) (call child' place)) : ∀ (places : List Nat) (last : Value),
      P (Calling.inTurn last (places.map (call child)))
        (Calling.inTurn last (places.map (call child')))
  | [], last => hP.pure last
  | place :: places, _ => hP.bind (h place) fun value => inTurn h places value

/-- A congruence passes from the evaluation of the children to the work of a node. -/
theorem work (laps : Nat) {child child' : Nat → Action Value} (n : Node)
    (he : ∀ e : RuntimeError, n.kind.raises e.kind = true → allowed e)
    (h : ∀ place, P (call child place) (call child' place)) :
    P (n.work laps child) (n.work laps child') := by
  cases n with
  | literal value => exact hP.pure value
  | print inner =>
    exact hP.bind (h 0) fun value => hP.bind (hP.print value fun _ => he _ rfl) fun _ =>
      hP.bind (hP.note _ trivial) fun _ => hP.pure _
  | binary op left right => exact hP.binary he (h 0) (h 1)
  | ifThen test body =>
    refine hP.bind (hP.condition (fun _ => he _ rfl) (h 0)) fun holds => ?_
    cases holds with
    | false => exact hP.pure _
    | true => exact hP.bind (hP.note _ trivial) fun _ => hP.inScope (h 1)
  | ifElse test body otherwise =>
    refine hP.bind (hP.condition (fun _ => he _ rfl) (h 0)) fun holds => ?_
    cases holds with
    | false => exact hP.bind (hP.note _ trivial) fun _ => hP.inScope (h 2)
    | true => exact hP.bind (hP.note _ trivial) fun _ => hP.inScope (h 1)
  | whileLoop test body =>
    have hlap := hP.inScope (hP.bind (h 1) fun _ => hP.pure ())
    exact hP.bind (hP.repeatWhile (hP.condition (fun _ => he _ rfl) (h 0)) hlap _ _) fun _ =>
      hP.bind (hP.note _ trivial) fun _ => hP.pure _
  | block nodes =>
    exact hP.bind (hP.note _ trivial) fun _ => hP.inScope (hP.inTurn h _ _)
  | var name =>
    exact hP.bind (hP.declare name) fun _ => hP.bind (hP.note _ trivial) fun _ => hP.pure _
  | identifier name => exact hP.get name (he _ rfl)
  | assign target value => exact hP.bind (h 1) fun value => hP.assignTo he target value
  | inspect inner => exact h 0

end Congruence

/-- A congruence of actions that holds of all records and errors holds of whole trees. -/
theorem Congruence.evaluate {P : ∀ {α : Type}, Action α → Action α → Prop}
    (hP : Congruence (fun _ => True) fun x y => P x.run y.run)
    (hnote : ∀ r : Record, r.depth? = none → P (Action.note r) (Action.note r))
    (laps : Nat) (n : Node) : P (n.evaluate laps) (n.evaluate laps) := by
  have hchild : ∀ n : Node, (∀ c ∈ n.children, P (c.evaluate laps) (c.evaluate laps)) →
      P (n.evaluate laps) (n.evaluate laps) := by
    intro n h
    have hplace : ∀ place, P (n.childEvaluation laps place) (n.childEvaluation laps place) := by
      intro place
      unfold Node.childEvaluation
      split
      · rename_i c hc
        exact h c (List.mem_of_getElem? hc)
      · exact hP.cutOff
    have hwork : P (n.work laps (n.childEvaluation laps)).run
        (n.work laps (n.childEvaluation laps)).run :=
      hP.work laps n (fun _ _ => trivial) hplace
    have hbind : ∀ {α β : Type} {x y : Action α} {f g : α → Action β}, P x y →
        (∀ a, P (f a) (g a)) → P (x >>= f) (y >>= g) := fun {_ _ x y f g} hx hf =>
      hP.bind (x := silent x) (y := silent y) (f := fun a => silent (f a))
        (g := fun a => silent (g a)) hx hf
    rw [Node.evaluate_eq_work]
    exact hbind (hnote _ rfl) fun _ => hbind hwork fun value =>
      hbind (hnote (.nodeLeft n.kind value) rfl) fun _ => hP.pure value
  exact Node.induct_children hchild n

end Calling

end TreeScript
