import TreeScript.Evaluation
import TreeScript.Proofs.Names

/-!
# Runs and their parts

How the run of a compound action goes back to the runs of its parts:
`Action.bind_eq_some_iff` for actions in sequence, `Action.inScope_eq_some_iff` for
a scope, and `Action.repeatWhile_succ` for one lap of a loop.

Most statements about runs compare two of them, or one with itself. A relation of
actions is an `Action.Congruence` if it passes from the parts of a sequence to the whole
and holds of the actions that touch neither scopes nor sink. It then passes through
everything that evaluation builds out of such parts. Of an error that names a variable
it need not hold, and it is `Action.Compositional` if it does.

`Node.Returns` is evaluation without a bound on the laps. A larger bound changes
no run that ends (`Node.evaluate_extends`), so a node returns in at most one way
(`Node.Returns.unique`). A program does what its tree does (`Node.runProgram_eq_map`).
-/

namespace TreeScript

/-- The depth of the stack that a record tells of, after a scope was opened or
closed. -/
def Record.depth? : Record → Option Nat
  | .scopePushed depth => some depth
  | .scopePopped depth => some depth
  | _ => none

namespace Machine

/-- A machine with a scope opened. -/
def opened (m : Machine) : Machine :=
  { m with
    scopes := m.scopes.push
    journal := m.journal.note (.scopePushed m.scopes.push.depth) }

/-- A machine with a scope closed. -/
def closed (m : Machine) : Machine :=
  { m with
    scopes := m.scopes.pop
    journal := m.journal.note (.scopePopped m.scopes.pop.depth) }

/-- A machine with the record that a program has ended. -/
def reported (m : Machine) (r : Except RuntimeError Value) : Machine :=
  { m with journal := m.journal.note (match r with
    | .ok value => .programFinished value
    | .error e => .programAborted e) }

end Machine

namespace Action

variable {α β : Type}

/-! ## Parts of a run -/

/-- A sequence ends with an error of its first part, or as its second part does. -/
theorem bind_eq_some_iff {x : Action α} {f : α → Action β} {m m' : Machine}
    {r : Except RuntimeError β} : (x >>= f) m = some (r, m') ↔
      (∃ e, x m = some (.error e, m') ∧ r = .error e) ∨
        ∃ a m₁, x m = some (.ok a, m₁) ∧ f a m₁ = some (r, m') := by
  cases hx : x m with
  | none => simp [bind_none hx]
  | some p =>
    obtain ⟨r₁, m₁⟩ := p
    cases r₁ with
    | error e =>
      rw [bind_error hx]
      constructor
      · rintro h
        cases h
        exact Or.inl ⟨e, rfl, rfl⟩
      · rintro (⟨e', h, rfl⟩ | ⟨a, m₂, h, -⟩)
        · cases h
          rfl
        · cases h
    | ok a =>
      rw [bind_ok hx]
      constructor
      · exact fun h => Or.inr ⟨a, m₁, rfl, h⟩
      · rintro (⟨e, h, -⟩ | ⟨a', m₂, h, h'⟩)
        · cases h
        · cases h
          exact h'

/-- A sequence that ends in a value does so by way of a value of its first part. -/
theorem bind_eq_some_ok_iff {x : Action α} {f : α → Action β} {m m' : Machine}
    {b : β} : (x >>= f) m = some (.ok b, m') ↔
      ∃ a m₁, x m = some (.ok a, m₁) ∧ f a m₁ = some (.ok b, m') := by
  rw [bind_eq_some_iff]
  constructor
  · rintro (⟨e, -, he⟩ | h)
    · cases he
    · exact h
  · exact .inr

/-- A scope is opened before its body and closed after it in any case. -/
theorem inScope_eq_map (x : Action α) (m : Machine) :
    inScope x m = (x m.opened).map fun p => (p.1, p.2.closed) := by
  have hpush : ∀ f : Unit → Action α, bind push f m = f () m.opened := fun _ => rfl
  unfold inScope
  refine (hpush _).trans ?_
  cases x m.opened <;> rfl

theorem inScope_eq_some_iff {x : Action α} {m m' : Machine} {r : Except RuntimeError α} :
    inScope x m = some (r, m') ↔ ∃ m₁, x m.opened = some (r, m₁) ∧ m' = m₁.closed := by
  rw [inScope_eq_map, Option.map_eq_some_iff]
  constructor
  · rintro ⟨⟨r₁, m₁⟩, h, hp⟩
    cases hp
    exact ⟨m₁, h, rfl⟩
  · rintro ⟨m₁, h, rfl⟩
    exact ⟨(r, m₁), h, rfl⟩

/-- One lap of a loop, and the rest of it. -/
theorem repeatWhile_succ (condition : Action Bool) (body : Action Unit) (laps count : Nat) :
    repeatWhile condition body (laps + 1) count = condition >>= fun holds =>
      if holds then body >>= fun _ => repeatWhile condition body laps (count + 1)
      else Pure.pure count := by
  funext m
  rw [repeatWhile]
  cases hc : condition m with
  | none => rw [bind_none hc]
  | some p =>
    obtain ⟨r₁, m₁⟩ := p
    cases r₁ with
    | error e => rw [bind_error hc]
    | ok holds =>
      rw [bind_ok hc]
      cases holds with
      | false => rfl
      | true =>
        simp only [↓reduceIte]
        cases hb : body m₁ with
        | none => rw [bind_none hb]
        | some p =>
          obtain ⟨r₂, m₂⟩ := p
          cases r₂ with
          | error e => rw [bind_error hb]
          | ok u => rw [bind_ok hb]

/-! ## Relations of actions -/

/-- A relation of actions that passes from the parts of a sequence to the whole, and
holds of the actions that touch neither scopes nor sink and name no variable in an error. -/
structure Congruence (P : ∀ {α : Type}, Action α → Action α → Prop) : Prop where
  pure : ∀ {α : Type} (a : α), P (Pure.pure a) (Pure.pure a)
  bind : ∀ {α β : Type} {x y : Action α} {f g : α → Action β}, P x y →
    (∀ a, P (f a) (g a)) → P (x >>= f) (y >>= g)
  note : ∀ r : Record, r.depth? = none → P (note r) (note r)
  fail : ∀ {α : Type} (e : RuntimeError), e.kind ≠ .undefinedVariable →
    P (fail e : Action α) (fail e)
  cutOff : ∀ {α : Type}, P (fun _ => none : Action α) (fun _ => none)

/-- A congruence that holds of every error. -/
structure Compositional (P : ∀ {α : Type}, Action α → Action α → Prop) : Prop where
  pure : ∀ {α : Type} (a : α), P (Pure.pure a) (Pure.pure a)
  bind : ∀ {α β : Type} {x y : Action α} {f g : α → Action β}, P x y →
    (∀ a, P (f a) (g a)) → P (x >>= f) (y >>= g)
  note : ∀ r : Record, r.depth? = none → P (note r) (note r)
  fail : ∀ {α : Type} (e : RuntimeError), P (fail e : Action α) (fail e)
  cutOff : ∀ {α : Type}, P (fun _ => none : Action α) (fun _ => none)

namespace Congruence

variable {P : ∀ {α : Type}, Action α → Action α → Prop} (hP : Congruence P)

include hP

theorem ofOption {e : RuntimeError} (he : e.kind ≠ .undefinedVariable) (a : Option α) :
    P (Action.ofOption e a) (Action.ofOption e a) := by
  cases a with
  | none => exact hP.fail e he
  | some a => exact hP.pure a

theorem repeatWhile {c c' : Action Bool} {b b' : Action Unit} (hc : P c c') (hb : P b b') :
    ∀ laps count, P (Action.repeatWhile c b laps count) (Action.repeatWhile c' b' laps count)
  | 0, _ => hP.cutOff
  | laps + 1, count => by
    rw [repeatWhile_succ, repeatWhile_succ]
    refine hP.bind hc fun holds => ?_
    cases holds with
    | false => exact hP.pure count
    | true => exact hP.bind hb fun _ => repeatWhile hc hb laps (count + 1)

theorem visiting {x y : Action Value} (kind : Node.Kind) (h : P x y) :
    P (Action.visiting kind x) (Action.visiting kind y) :=
  hP.bind (hP.note _ rfl) fun _ => hP.bind h fun value =>
    hP.bind (hP.note (.nodeLeft kind value) rfl) fun _ => hP.pure value

theorem condition {x y : Action Value} (construct : Construct) (h : P x y) :
    P (Action.condition construct x) (Action.condition construct y) :=
  hP.bind h fun _ => hP.ofOption (by simp [RuntimeError.kind]) _

theorem numberOperands (op : Operator) (left right : Value) :
    P (Action.numberOperands op left right) (Action.numberOperands op left right) := by
  refine hP.bind (hP.note _ rfl) fun _ => ?_
  split
  · exact hP.pure _
  · exact hP.fail _ (by simp [RuntimeError.kind])

theorem arithmetic (op : Arithmetic) (left right : Value) :
    P (Action.arithmetic op left right) (Action.arithmetic op left right) := by
  refine hP.bind (hP.numberOperands _ left right) fun ⟨a, b⟩ => ?_
  dsimp only
  split
  · exact hP.bind (hP.note _ rfl) fun _ => hP.fail _ (by simp [RuntimeError.kind])
  · exact hP.pure _

theorem comparison (op : Comparison) (left right : Value) :
    P (Action.comparison op left right) (Action.comparison op left right) :=
  hP.bind (hP.numberOperands _ left right) fun _ => hP.pure _

theorem booleanOperand (op : Connective) (value : Value) :
    P (Action.booleanOperand op value) (Action.booleanOperand op value) :=
  hP.ofOption (by simp [RuntimeError.kind]) _

theorem connective {x y : Action Value} (op : Connective) (left : Value) (h : P x y) :
    P (Action.connective op left x) (Action.connective op left y) := by
  refine hP.bind (hP.booleanOperand op left) fun a => ?_
  split
  · exact hP.bind (hP.note _ rfl) fun _ => hP.pure _
  · exact hP.bind h fun value => hP.bind (hP.booleanOperand op value) fun _ => hP.pure _

theorem binary {x x' y y' : Action Value} (op : Operator) (hl : P x x') (hr : P y y') :
    P (Action.binary op x y) (Action.binary op x' y') := by
  refine hP.bind (hP.note _ rfl) fun _ => hP.bind hl fun a => ?_
  cases op with
  | arithmetic op => exact hP.bind hr fun b => hP.arithmetic op a b
  | comparison op => exact hP.bind hr fun b => hP.comparison op a b
  | equal => exact hP.bind hr fun b => hP.pure _
  | notEqual => exact hP.bind hr fun b => hP.pure _
  | connective op => exact hP.connective op a hr

theorem evaluateAll {laps laps' : Nat} (f : Node → Node) : ∀ (nodes : List Node) (last : Value),
    (∀ node ∈ nodes, P (node.evaluate laps) ((f node).evaluate laps')) →
    P (Node.evaluateAll laps last nodes) (Node.evaluateAll laps' last (nodes.map f))
  | [], last, _ => hP.pure last
  | node :: nodes, _, h => by
    simp only [List.map_cons, Node.evaluateAll]
    exact hP.bind (h node (List.mem_cons_self ..)) fun value =>
      evaluateAll f nodes value fun n hn => h n (List.mem_cons_of_mem _ hn)

end Congruence

namespace Compositional

variable {P : ∀ {α : Type}, Action α → Action α → Prop} (hP : Compositional P)

include hP

theorem congruence : Congruence P where
  pure := hP.pure
  bind := hP.bind
  note := hP.note
  fail e _ := hP.fail e
  cutOff := hP.cutOff

theorem ofOption (e : RuntimeError) (a : Option α) :
    P (Action.ofOption e a) (Action.ofOption e a) := by
  cases a with
  | none => exact hP.fail e
  | some a => exact hP.pure a

theorem repeatWhile {c c' : Action Bool} {b b' : Action Unit} (hc : P c c') (hb : P b b') :
    ∀ laps count, P (Action.repeatWhile c b laps count) (Action.repeatWhile c' b' laps count) :=
  hP.congruence.repeatWhile hc hb

theorem visiting {x y : Action Value} (kind : Node.Kind) (h : P x y) :
    P (Action.visiting kind x) (Action.visiting kind y) :=
  hP.congruence.visiting kind h

theorem condition {x y : Action Value} (construct : Construct) (h : P x y) :
    P (Action.condition construct x) (Action.condition construct y) :=
  hP.congruence.condition construct h

theorem binary {x x' y y' : Action Value} (op : Operator) (hl : P x x') (hr : P y y') :
    P (Action.binary op x y) (Action.binary op x' y') :=
  hP.congruence.binary op hl hr

theorem evaluateAll {laps laps' : Nat} (nodes : List Node) (last : Value)
    (h : ∀ node ∈ nodes, P (node.evaluate laps) (node.evaluate laps')) :
    P (Node.evaluateAll laps last nodes) (Node.evaluateAll laps' last nodes) := by
  have hall := hP.congruence.evaluateAll id nodes last h
  rwa [List.map_id] at hall

end Compositional

/-! ## More laps -/

/-- The second action ends wherever the first one does, and in the same way. -/
def Extends (x y : Action α) : Prop :=
  ∀ m p, x m = some p → y m = some p

theorem Extends.refl (x : Action α) : Extends x x :=
  fun _ _ h => h

theorem compositional_extends : Compositional Extends where
  pure _ := Extends.refl _
  bind := by
    rintro α β x y f g hx hf m ⟨r, m'⟩ h
    rcases bind_eq_some_iff.1 h with ⟨e, h₁, rfl⟩ | ⟨a, m₁, h₁, h₂⟩
    · exact bind_error (hx _ _ h₁)
    · rw [bind_ok (hx _ _ h₁)]
      exact hf a _ _ h₂
  note _ _ := Extends.refl _
  fail _ := Extends.refl _
  cutOff := Extends.refl _

theorem Extends.inScope {x y : Action α} (h : Extends x y) :
    Extends (inScope x) (inScope y) := by
  rintro m ⟨r, m'⟩ hr
  obtain ⟨m₁, h₁, rfl⟩ := inScope_eq_some_iff.1 hr
  exact inScope_eq_some_iff.2 ⟨m₁, h _ _ h₁, rfl⟩

theorem Extends.repeatWhile {c c' : Action Bool} {b b' : Action Unit} (hc : Extends c c')
    (hb : Extends b b') : ∀ {laps laps' : Nat} (count : Nat), laps ≤ laps' →
      Extends (repeatWhile c b laps count) (repeatWhile c' b' laps' count)
  | 0, _, _, _ => fun _ _ h => by simp [Action.repeatWhile] at h
  | laps + 1, 0, _, hle => absurd hle (by omega)
  | laps + 1, laps' + 1, count, hle => by
    rw [repeatWhile_succ, repeatWhile_succ]
    refine compositional_extends.bind hc fun holds => ?_
    cases holds with
    | false => exact Extends.refl _
    | true =>
      exact compositional_extends.bind hb fun _ =>
        Extends.repeatWhile hc hb (count + 1) (Nat.le_of_succ_le_succ hle)

end Action

namespace Node

open TreeScript.Action

/-- A larger bound on the laps changes no run that ends. -/
theorem evaluate_extends {laps laps' : Nat} (hle : laps ≤ laps') (n : Node) :
    Extends (n.evaluate laps) (n.evaluate laps') := by
  have hP := compositional_extends
  induction n with
  | literal value => simp only [evaluate]; exact Extends.refl _
  | print inner ih =>
    simp only [evaluate]
    exact hP.visiting _ (hP.bind ih fun _ => Extends.refl _)
  | binary op left right ihl ihr =>
    simp only [evaluate]
    exact hP.visiting _ (hP.binary op ihl ihr)
  | ifThen test body iht ihb =>
    simp only [evaluate]
    refine hP.visiting _ (hP.bind (hP.condition _ iht) fun holds => ?_)
    cases holds with
    | false => exact Extends.refl _
    | true => exact hP.bind (hP.note _ rfl) fun _ => ihb.inScope
  | ifElse test body otherwise iht ihb iho =>
    simp only [evaluate]
    refine hP.visiting _ (hP.bind (hP.condition _ iht) fun holds => ?_)
    cases holds with
    | false => exact hP.bind (hP.note _ rfl) fun _ => iho.inScope
    | true => exact hP.bind (hP.note _ rfl) fun _ => ihb.inScope
  | whileLoop test body iht ihb =>
    simp only [evaluate]
    refine hP.visiting _ (hP.bind ?_ fun _ => Extends.refl _)
    have hlap := Extends.inScope (hP.bind ihb fun _ => hP.pure ())
    exact Extends.repeatWhile (hP.condition _ iht) hlap 0 hle
  | block nodes ih =>
    simp only [evaluate]
    exact hP.visiting _ (hP.bind (hP.note _ rfl) fun _ =>
      Extends.inScope (hP.evaluateAll nodes _ ih))
  | var name => simp only [evaluate]; exact Extends.refl _
  | identifier name => simp only [evaluate]; exact Extends.refl _
  | assign target value _ ihv =>
    simp only [evaluate]
    exact hP.visiting _ (hP.bind ihv fun _ => Extends.refl _)
  | inspect inner ih =>
    simp only [evaluate]
    exact hP.visiting _ ih

/-- Evaluation of a node ends in a result and a machine, with some bound on the laps. -/
def Returns (n : Node) (m : Machine) (r : Except RuntimeError Value) (m' : Machine) : Prop :=
  ∃ laps, n.evaluate laps m = some (r, m')

/-- A node returns in at most one way. -/
theorem Returns.unique {n : Node} {m m₁ m₂ : Machine} {r₁ r₂ : Except RuntimeError Value}
    (h₁ : n.Returns m r₁ m₁) (h₂ : n.Returns m r₂ m₂) : r₁ = r₂ ∧ m₁ = m₂ := by
  obtain ⟨laps₁, h₁⟩ := h₁
  obtain ⟨laps₂, h₂⟩ := h₂
  have h₁' := evaluate_extends (Nat.le_max_left laps₁ laps₂) n _ _ h₁
  have h₂' := evaluate_extends (Nat.le_max_right laps₁ laps₂) n _ _ h₂
  rw [h₁', Option.some.injEq, Prod.mk.injEq] at h₂'
  exact h₂'

/-- A program does what its tree does, between the records of its start and its end. -/
theorem runProgram_eq_map (laps : Nat) (root : Node) (m : Machine) : root.runProgram laps m =
    (root.evaluate laps { m with journal := m.journal.note (.programStarted root.kind) }).map
      fun p => (p.1, p.2.reported p.1) := by
  have hnote : ∀ f : Unit → Action Value, Action.bind (note (.programStarted root.kind)) f m =
      f () { m with journal := m.journal.note (.programStarted root.kind) } := fun _ => rfl
  unfold runProgram
  refine (hnote _).trans ?_
  cases root.evaluate laps { m with journal := m.journal.note (.programStarted root.kind) } with
  | none => rfl
  | some p =>
    obtain ⟨r, m₁⟩ := p
    cases r <;> rfl

/-- With laps enough for the tree, a program ends as the tree does. -/
theorem runProgram_of_evaluate {bound laps : Nat} (hle : bound ≤ laps) {root : Node}
    {m m' : Machine} {r : Except RuntimeError Value}
    (h : root.evaluate bound { m with journal := m.journal.note (.programStarted root.kind) } =
      some (r, m')) : root.runProgram laps m = some (r, m'.reported r) := by
  rw [runProgram_eq_map, evaluate_extends hle root _ _ h]
  rfl

end Node

end TreeScript
