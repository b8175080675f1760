import TreeScript.Proofs.Number.Bits
import TreeScript.Proofs.Runs
import TreeScript.Proofs.Semantics.Rules
import TreeScript.Proofs.Slots

/-!
# Actions and judgments

A `Judgment` relates linked scopes, an outcome, a printed text and the scopes that are
left, as the rules of evaluation do. An action on a sink without a limit compares with a
judgment in two ways. It `Reaches` what the judgment relates, and it `Obeys` the
judgment if each of its runs is related. Both pass through sequences and scopes.

The steps that touch neither scopes nor sink are `Quiet`, which settles both at once.
The operators on evaluated operands are (`Action.quiet_strict`).
-/

namespace TreeScript

/-! ## Printing -/

namespace Sink

/-- A sink that took one more text. -/
def printed (s : Sink) (text : String) : Sink :=
  { s with written := s.written ++ text.toUTF8 }

theorem printed_empty (s : Sink) : s.printed "" = s := by
  simp [printed]

theorem printed_append (s : Sink) (w₁ w₂ : String) :
    s.printed (w₁ ++ w₂) = (s.printed w₁).printed w₂ := by
  simp [printed, ByteArray.append_assoc]

theorem printed_injective (s : Sink) {w₁ w₂ : String} (h : s.printed w₁ = s.printed w₂) :
    w₁ = w₂ := by
  have hwritten : s.written ++ w₁.toUTF8 = s.written ++ w₂.toUTF8 := congrArg written h
  rw [ByteArray.append_right_inj] at hwritten
  exact String.toByteArray_inj.1 hwritten

end Sink

/-! ## Judgments -/

/-- A relation of linked scopes, an outcome, a printed text and the scopes that are left. -/
def Judgment (α : Type) : Type :=
  Chain → Except ErrorKind α → String → Chain → Prop

variable {α β : Type} {J : Judgment α} {K : Judgment β} {c c' : Chain} {w : String}

namespace Action

/-- From the given scopes, the action ends in the outcome, prints the text and leaves
the other scopes, whatever else the machine holds. -/
def Reaches (x : Action α) : Judgment α :=
  fun c r w c' => ∀ m : Machine, m.sink.capacity = none → m.scopes.chain = c →
    ∃ e s j, x m = some (e, ⟨s, m.sink.printed w, j⟩) ∧ e.mapError RuntimeError.kind = r ∧
      s.chain = c'

/-- Every run of the action is in the judgment, and ends at the depth it began at. -/
def Obeys (x : Action α) (J : Judgment α) : Prop :=
  ∀ m e m', m.sink.capacity = none → x m = some (e, m') →
    m'.scopes.depth = m.scopes.depth ∧ ∃ w, m'.sink = m.sink.printed w ∧
      J m.scopes.chain (e.mapError RuntimeError.kind) w m'.scopes.chain

/-- The action ends in an outcome with the property, and at most leaves records. -/
def Quiet (x : Action α) (P : Except ErrorKind α → Prop) : Prop :=
  ∀ m : Machine, ∃ e j, x m = some (e, { m with journal := j }) ∧
    P (e.mapError RuntimeError.kind)

theorem Obeys.mono {x : Action α} {J' : Judgment α} (h : Obeys x J)
    (hJ : ∀ c r w c', J c r w c' → J' c r w c') : Obeys x J' := by
  intro m e m' hm hrun
  obtain ⟨hdepth, w, hsink, hjudged⟩ := h m e m' hm hrun
  exact ⟨hdepth, w, hsink, hJ _ _ _ _ hjudged⟩

/-! ## Sequences and scopes -/

theorem Reaches.bind_ok {x : Action α} {f : α → Action β} {c₁ : Chain} {a : α}
    {r : Except ErrorKind β} {w₁ w₂ : String} (hx : Reaches x c (.ok a) w₁ c₁)
    (hf : Reaches (f a) c₁ r w₂ c') : Reaches (x >>= f) c r (w₁ ++ w₂) c' := by
  intro m hm hc
  obtain ⟨e₁, s₁, j₁, hrun₁, he₁, hs₁⟩ := hx m hm hc
  cases e₁ with
  | error e => cases he₁
  | ok a' =>
    cases he₁
    obtain ⟨e, s, j, hrun, he, hs⟩ := hf ⟨s₁, m.sink.printed w₁, j₁⟩ hm hs₁
    rw [← Sink.printed_append] at hrun
    exact ⟨e, s, j, (Action.bind_ok hrun₁).trans hrun, he, hs⟩

theorem Reaches.bind_error {x : Action α} {f : α → Action β} {k : ErrorKind}
    (hx : Reaches x c (.error k) w c') : Reaches (x >>= f) c (.error k) w c' := by
  intro m hm hc
  obtain ⟨e₁, s₁, j₁, hrun₁, he₁, hs₁⟩ := hx m hm hc
  cases e₁ with
  | ok a => cases he₁
  | error e =>
    cases he₁
    exact ⟨.error e, s₁, j₁, Action.bind_error hrun₁, rfl, hs₁⟩

/-- An action after another one obeys what follows from both. -/
theorem Obeys.bind {x : Action α} {f : α → Action β} (hx : Obeys x J)
    (herror : ∀ c k w c', J c (.error k) w c' → K c (.error k) w c')
    (hf : ∀ a, Obeys (f a) fun c₁ r w₂ c₂ =>
      ∀ c w₁, J c (.ok a) w₁ c₁ → K c r (w₁ ++ w₂) c₂) : Obeys (x >>= f) K := by
  intro m e m' hm hrun
  rcases bind_eq_some_iff.1 hrun with ⟨e₁, hrun₁, rfl⟩ | ⟨a, m₁, hrun₁, hrun₂⟩
  · obtain ⟨hdepth, w, hsink, hJ⟩ := hx m _ m' hm hrun₁
    exact ⟨hdepth, w, hsink, herror _ _ _ _ hJ⟩
  · obtain ⟨hdepth₁, w₁, hsink₁, hJ₁⟩ := hx m _ m₁ hm hrun₁
    have hm₁ : m₁.sink.capacity = none := by rw [hsink₁]; exact hm
    obtain ⟨hdepth₂, w₂, hsink₂, hJ₂⟩ := hf a m₁ e m' hm₁ hrun₂
    refine ⟨hdepth₂.trans hdepth₁, w₁ ++ w₂, ?_, hJ₂ _ _ hJ₁⟩
    rw [hsink₂, hsink₁, Sink.printed_append]

theorem Reaches.inScope {x : Action α} {r : Except ErrorKind α} {vars : String → Option Value}
    (hx : Reaches x c.enter r w (.inner vars c')) : Reaches (Action.inScope x) c r w c' := by
  intro m hm hc
  obtain ⟨e, s, j, hrun, he, hs⟩ := hx m.opened hm (by rw [← hc]; rfl)
  exact ⟨e, s.pop, _, inScope_eq_some_iff.2 ⟨_, hrun, rfl⟩, he, Scopes.chain_pop hs⟩

theorem Obeys.inScope {x : Action α} (hx : Obeys x J) : Obeys (Action.inScope x) fun c r w c' =>
    ∃ vars, J c.enter r w (.inner vars c') := by
  intro m e m' hm hrun
  obtain ⟨m₁, hrun₁, rfl⟩ := inScope_eq_some_iff.1 hrun
  obtain ⟨hdepth, w, hsink, hjudged⟩ := hx m.opened e m₁ hm hrun₁
  have hpush : m₁.scopes.depth = m.scopes.depth + 1 := hdepth
  have htwo : 2 ≤ m₁.scopes.depth := by have := m.scopes.one_le_depth; omega
  obtain ⟨vars, hvars⟩ := Scopes.exists_chain_eq_inner htwo
  rw [hvars] at hjudged
  have hpop := Scopes.depth_pop htwo
  refine ⟨?_, w, hsink, vars, hjudged⟩
  show m₁.scopes.pop.depth = m.scopes.depth
  omega

/-! ## Quiet actions -/

theorem quiet_pure (a : α) : Quiet (Pure.pure a) (· = .ok a) :=
  fun _ => ⟨_, _, rfl, rfl⟩

theorem quiet_fail (e : RuntimeError) : Quiet (fail e : Action α) (· = .error e.kind) :=
  fun _ => ⟨_, _, rfl, rfl⟩

theorem Quiet.bind_ok {x : Action α} {f : α → Action β} {a : α}
    {P : Except ErrorKind β → Prop} (hx : Quiet x (· = .ok a)) (hf : Quiet (f a) P) :
    Quiet (x >>= f) P := by
  intro m
  obtain ⟨e₁, j₁, hrun₁, he₁⟩ := hx m
  cases e₁ with
  | error e => cases he₁
  | ok a' =>
    cases he₁
    obtain ⟨e, j, hrun, he⟩ := hf { m with journal := j₁ }
    exact ⟨e, j, (Action.bind_ok hrun₁).trans hrun, he⟩

theorem Quiet.bind_error {x : Action α} {f : α → Action β} {k : ErrorKind}
    (hx : Quiet x (· = .error k)) : Quiet (x >>= f) (· = .error k) := by
  intro m
  obtain ⟨e₁, j₁, hrun₁, he₁⟩ := hx m
  cases e₁ with
  | ok a => cases he₁
  | error e =>
    cases he₁
    exact ⟨.error e, j₁, Action.bind_error hrun₁, rfl⟩

theorem quiet_note (r : Record) : Quiet (note r) (· = .ok ()) :=
  fun _ => ⟨_, _, rfl, rfl⟩

theorem Quiet.imp {x : Action α} {P Q : Except ErrorKind α → Prop} (h : Quiet x P)
    (hPQ : ∀ r, P r → Q r) : Quiet x Q := by
  intro m
  obtain ⟨e, j, hrun, he⟩ := h m
  exact ⟨e, j, hrun, hPQ _ he⟩

theorem Quiet.reaches {x : Action α} {r : Except ErrorKind α} (h : Quiet x (· = r)) (c : Chain) :
    Reaches x c r "" c := by
  intro m hm hc
  obtain ⟨e, j, hrun, he⟩ := h m
  rw [Sink.printed_empty]
  exact ⟨e, m.scopes, j, hrun, he, hc⟩

theorem Quiet.obeys {x : Action α} (h : Quiet x fun r => ∀ c, J c r "" c) : Obeys x J := by
  intro m e m' hm hrun
  obtain ⟨e₁, j, hrun₁, he₁⟩ := h m
  rw [hrun] at hrun₁
  cases hrun₁
  exact ⟨rfl, "", (Sink.printed_empty _).symm, he₁ _⟩

theorem Reaches.bind_silent {x : Action α} {f : α → Action β} {c₁ : Chain} {a : α}
    {r : Except ErrorKind β} (hx : Reaches x c (.ok a) w c₁) (hf : Reaches (f a) c₁ r "" c') :
    Reaches (x >>= f) c r w c' := by
  have h := hx.bind_ok hf
  rwa [String.append_empty] at h

/-- A quiet action after another one adds nothing to what that one reaches. -/
theorem Reaches.bind_quiet {x : Action α} {f : α → Action β} {a : α} {r : Except ErrorKind β}
    (hx : Reaches x c (.ok a) w c') (hf : Quiet (f a) (· = r)) : Reaches (x >>= f) c r w c' :=
  hx.bind_silent (hf.reaches c')

/-- A quiet action before another one adds nothing to what that one reaches. -/
theorem Quiet.bind_reaches {x : Action α} {f : α → Action β} {a : α} {r : Except ErrorKind β}
    (hx : Quiet x (· = .ok a)) (hf : Reaches (f a) c r w c') : Reaches (x >>= f) c r w c' := by
  have h := (hx.reaches c).bind_ok hf
  rwa [String.empty_append] at h

/-- A quiet action before another one adds nothing to what that one obeys. -/
theorem Quiet.bind_obeys {x : Action α} {f : α → Action β} {a : α}
    (hx : Quiet x (· = .ok a)) (hf : Obeys (f a) K) : Obeys (x >>= f) K := by
  intro m e m' hm hrun
  obtain ⟨e₁, j, hrun₁, he₁⟩ := hx m
  cases e₁ with
  | error e => cases he₁
  | ok a' =>
    cases he₁
    rw [Action.bind_ok hrun₁] at hrun
    exact hf { m with journal := j } e m' hm hrun

/-- A quiet action after another one obeys what follows from its outcome. -/
theorem Obeys.bind_quiet {x : Action α} {f : α → Action β} (hx : Obeys x J)
    (herror : ∀ c k w c', J c (.error k) w c' → K c (.error k) w c')
    (hf : ∀ a, Quiet (f a) fun r => ∀ c w c', J c (.ok a) w c' → K c r w c') :
    Obeys (x >>= f) K := by
  refine hx.bind herror fun a => ((hf a).imp fun r h c₁ c w₁ hJ => ?_).obeys
  rw [String.append_empty]
  exact h c w₁ c₁ hJ

/-! ## The parts of evaluation -/

theorem Reaches.visiting {x : Action Value} {r : Except ErrorKind Value} (kind : Node.Kind)
    (h : Reaches x c r w c') : Reaches (Action.visiting kind x) c r w c' := by
  refine (quiet_note _).bind_reaches ?_
  cases r with
  | error k => exact h.bind_error
  | ok v => exact h.bind_quiet ((quiet_note _).bind_ok (quiet_pure v))

theorem Obeys.visiting {x : Action Value} {J : Judgment Value} (kind : Node.Kind) (h : Obeys x J) :
    Obeys (Action.visiting kind x) J := by
  refine (quiet_note _).bind_obeys (h.bind_quiet (fun _ _ _ _ hJ => hJ) fun v => ?_)
  refine ((quiet_note _).bind_ok (quiet_pure v)).imp ?_
  rintro r rfl c w c' hJ
  exact hJ

/-- A value that has to be a boolean, with the error if it is none. -/
theorem quiet_asBoolean (e : RuntimeError) (v : Value) :
    Quiet (ofOption e v.asBoolean?) (· = truth e.kind (.ok v)) := by
  cases v with
  | boolean b => exact quiet_pure b
  | number x => exact quiet_fail e
  | string s => exact quiet_fail e
  | unit => exact quiet_fail e

theorem Reaches.condition {x : Action Value} {r : Except ErrorKind Value} (construct : Construct)
    (h : Reaches x c r w c') :
    Reaches (Action.condition construct x) c (truth .conditionNotBoolean r) w c' := by
  cases r with
  | error k => exact h.bind_error
  | ok v => exact h.bind_quiet (quiet_asBoolean _ v)

/-- What follows a condition obeys what follows from a condition that holds or not. -/
theorem Obeys.condition_bind {x : Action Value} {f : Bool → Action α} {J : Judgment Value}
    {K : Judgment α} (construct : Construct) (hx : Obeys x J)
    (herror : ∀ c res k w c', J c res w c' → truth .conditionNotBoolean res = .error k →
      K c (.error k) w c')
    (hf : ∀ b, Obeys (f b) fun c₁ r w₂ c₂ =>
      ∀ c w₁, J c (.ok (.boolean b)) w₁ c₁ → K c r (w₁ ++ w₂) c₂) :
    Obeys (Action.condition construct x >>= f) K := by
  have htest : Obeys (Action.condition construct x) fun c r w c' =>
      ∃ res, J c res w c' ∧ r = truth .conditionNotBoolean res := by
    refine hx.bind_quiet (fun c k w c' hJ => ⟨_, hJ, rfl⟩) fun v => ?_
    refine (quiet_asBoolean _ v).imp ?_
    rintro r rfl c w c' hJ
    exact ⟨_, hJ, rfl⟩
  refine htest.bind ?_ fun b => (hf b).mono ?_
  · rintro c k w c' ⟨res, hJ, hres⟩
    exact herror c res k w c' hJ hres.symm
  · rintro c₁ r w₂ c₂ hK c w₁ ⟨res, hJ, hres⟩
    rw [truth_eq_ok hres.symm] at hJ
    exact hK c w₁ hJ

/-! ## Scopes and sink -/

theorem reaches_print (v : Value) (c : Chain) :
    Reaches (print v) c (.ok ()) (v.text ++ "\n") c := by
  intro m hm hc
  refine ⟨.ok (), m.scopes, m.journal, ?_, rfl, hc⟩
  unfold print
  rw [Sink.write_of_capacity_eq_none hm, ← hm]
  rfl

theorem obeys_print (v : Value) :
    Obeys (print v) fun c r w c' => r = .ok () ∧ w = v.text ++ "\n" ∧ c' = c := by
  intro m e m' hm hrun
  obtain ⟨e', s, j, hrun', he, hs⟩ := reaches_print v m.scopes.chain m hm rfl
  rw [hrun] at hrun'
  cases hrun'
  have := Scopes.chain_injective hs
  exact ⟨by rw [this], _, rfl, he, rfl, hs⟩

theorem reaches_declare (name : String) (c : Chain) :
    Reaches (declare name) c (.ok ()) "" (c.declare name) := by
  intro m hm hc
  refine ⟨.ok (), m.scopes.declare name, m.journal, ?_, rfl, by rw [← hc, Scopes.chain_declare]⟩
  rw [Sink.printed_empty]
  rfl

theorem obeys_declare (name : String) :
    Obeys (declare name) fun c r w c' => r = .ok () ∧ w = "" ∧ c' = c.declare name := by
  intro m e m' hm hrun
  cases hrun
  exact ⟨rfl, "", (Sink.printed_empty _).symm, rfl, rfl, Scopes.chain_declare _ _⟩

theorem reaches_get {name : String} {v : Value} (h : c.lookup name = some v) :
    Reaches (get name) c (.ok v) "" c := by
  intro m hm hc
  rw [← hc, Scopes.lookup_chain] at h
  have hq := (quiet_pure v).reaches c m hm hc
  unfold get
  rw [h]
  exact hq

theorem reaches_get_undefined {name : String} (h : c.lookup name = none) :
    Reaches (get name) c (.error .undefinedVariable) "" c := by
  intro m hm hc
  rw [← hc, Scopes.lookup_chain] at h
  have hfail : Quiet (fail (.undefinedVariable name) : Action Value) _ := quiet_fail _
  have hq := hfail.reaches c m hm hc
  unfold get
  rw [h]
  exact hq

theorem reaches_assign {name : String} {v : Value} (h : c.rebind name v = some c') :
    Reaches (assign name v) c (.ok ()) "" c' := by
  intro m hm hc
  rw [← hc, Scopes.rebind_chain, Option.map_eq_some_iff] at h
  obtain ⟨s, hs, hchain⟩ := h
  refine ⟨.ok (), s, m.journal, ?_, rfl, hchain⟩
  unfold assign
  rw [hs, Sink.printed_empty]

theorem reaches_assign_undefined {name : String} {v : Value} (h : c.rebind name v = none) :
    Reaches (assign name v) c (.error .undefinedVariable) "" c := by
  intro m hm hc
  rw [← hc, Scopes.rebind_chain, Option.map_eq_none_iff] at h
  have hfail : Quiet (fail (.undefinedVariable name) : Action Unit) _ := quiet_fail _
  have hq := hfail.reaches c m hm hc
  unfold assign
  rw [h]
  exact hq

theorem quiet_assignTo_of_no_target {target : Node} (v : Value)
    (h : ∀ name, target ≠ .identifier name) :
    Quiet (assignTo target v) (· = .error .invalidAssignmentTarget) := by
  unfold assignTo
  split
  · exact absurd rfl (h _)
  · exact quiet_fail _

/-! ## Operators -/

theorem settles_iff {op : Connective} {b : Bool} : Settles op b ↔ b = op.settledBy := by
  constructor
  · rintro (_ | _) <;> rfl
  · rintro rfl
    cases op with
    | and => exact .and
    | or => exact .or

theorem quiet_booleanOperand (op : Connective) (v : Value) :
    Quiet (booleanOperand op v) (· = truth .typeMismatch (.ok v)) :=
  quiet_asBoolean _ v

theorem quiet_numberOperands (op : Operator) (x y : Float) :
    Quiet (numberOperands op (.number x) (.number y)) (· = .ok (x, y)) :=
  (quiet_note _).bind_ok (quiet_pure _)

theorem quiet_numberOperands_mismatch (op : Operator) {a b : Value}
    (h : a.kind ≠ .number ∨ b.kind ≠ .number) :
    Quiet (numberOperands op a b) (· = .error .typeMismatch) := by
  refine (quiet_note _).bind_ok ?_
  split
  · simp [Value.kind] at h
  · exact quiet_fail _

theorem quiet_arithmetic (op : Arithmetic) (a b : Value) :
    Quiet (arithmetic op a b) (Applies (.arithmetic op) a b) := by
  by_cases h : a.kind ≠ .number ∨ b.kind ≠ .number
  · refine (quiet_numberOperands_mismatch _ h).bind_error.imp ?_
    rintro r rfl
    exact .arithmeticMismatch op h
  · obtain ⟨x, y, rfl, rfl⟩ : ∃ x y, a = .number x ∧ b = .number y := by
      cases a <;> cases b <;> simp [Value.kind] at h ⊢
    refine (quiet_numberOperands _ x y).bind_ok ?_
    dsimp only
    split
    · rename_i hzero
      simp only [Bool.and_eq_true, decide_eq_true_eq, Number.beq_zero_iff] at hzero
      obtain ⟨rfl, hzero⟩ := hzero
      refine ((quiet_note _).bind_ok (quiet_fail _)).imp ?_
      rintro r rfl
      exact .divideByZero x hzero
    · rename_i hzero
      refine (quiet_pure _).imp ?_
      rintro r rfl
      cases op with
      | add => exact .add x y
      | subtract => exact .subtract x y
      | multiply => exact .multiply x y
      | divide => exact .divide x fun hy => hzero (by simpa [Number.beq_zero_iff] using hy)

theorem quiet_comparison (op : Comparison) (a b : Value) :
    Quiet (comparison op a b) (Applies (.comparison op) a b) := by
  by_cases h : a.kind ≠ .number ∨ b.kind ≠ .number
  · refine (quiet_numberOperands_mismatch _ h).bind_error.imp ?_
    rintro r rfl
    exact .comparisonMismatch op h
  · obtain ⟨x, y, rfl, rfl⟩ : ∃ x y, a = .number x ∧ b = .number y := by
      cases a <;> cases b <;> simp [Value.kind] at h ⊢
    refine (quiet_numberOperands _ x y).bind_ok ((quiet_pure _).imp ?_)
    rintro r rfl
    cases op with
    | lessEqual => exact .lessEqual x y
    | less => exact .less x y
    | greaterEqual => exact .greaterEqual x y
    | greater => exact .greater x y

theorem quiet_equal (a b : Value) :
    Quiet (Pure.pure (.boolean (a.equal b))) (Applies .equal a b) := by
  refine (quiet_pure _).imp ?_
  rintro r rfl
  cases h : a.equal b with
  | true => exact .equal (Value.equal_iff_same.1 h)
  | false => exact .unequal fun hsame => by simp [Value.equal_iff_same.2 hsame] at h

theorem quiet_notEqual (a b : Value) :
    Quiet (Pure.pure (.boolean (!a.equal b))) (Applies .notEqual a b) := by
  refine (quiet_pure _).imp ?_
  rintro r rfl
  cases h : a.equal b with
  | true => exact .notUnequal (Value.equal_iff_same.1 h)
  | false => exact .notEqual fun hsame => by simp [Value.equal_iff_same.2 hsame] at h

/-- A strict operator evaluates the left operand, then the right one, and then goes by
`Applies`. -/
theorem quiet_strict {op : Operator} (h : Strict op) : ∃ f : Value → Value → Action Value,
    (∀ x y, binary op x y =
      note (.operation op) >>= fun _ => x >>= fun a => y >>= fun b => f a b) ∧
    ∀ a b, Quiet (f a b) (Applies op a b) := by
  cases op with
  | arithmetic op => exact ⟨arithmetic op, fun _ _ => rfl, quiet_arithmetic op⟩
  | comparison op => exact ⟨comparison op, fun _ _ => rfl, quiet_comparison op⟩
  | equal => exact ⟨_, fun _ _ => rfl, quiet_equal⟩
  | notEqual => exact ⟨_, fun _ _ => rfl, quiet_notEqual⟩
  | connective op => exact absurd rfl (h op)

end Action

end TreeScript
