import TreeScript.Proofs.Semantics.Complete

/-!
# Runs are derived

Whatever a run arrives at, the rules of evaluation derive (`Node.evaluate_obeys`). The
induction is on the tree, and for a loop on the laps that it may take.

With the other direction this is adequacy of the evaluator for the rules
(`Node.returns_iff_eval`): on a sink without a limit, a node returns what is derived
of it, with the text that is printed and the scopes that are left.
-/

namespace TreeScript

namespace Action

/-! ## Names -/

theorem obeys_get (name : String) : Obeys (get name) (Eval (.identifier name)) := by
  intro m e m' hm hrun
  unfold get at hrun
  cases hget : m.scopes.get? name with
  | none =>
    rw [hget] at hrun
    cases hrun
    refine ⟨rfl, "", (Sink.printed_empty _).symm, .undefined ?_⟩
    rw [Scopes.lookup_chain, hget]
  | some v =>
    rw [hget] at hrun
    cases hrun
    refine ⟨rfl, "", (Sink.printed_empty _).symm, .identifier ?_⟩
    rw [Scopes.lookup_chain, hget]

theorem obeys_assign (name : String) (v : Value) : Obeys (assign name v) fun c r w c' =>
    w = "" ∧ ((r = .ok () ∧ c.rebind name v = some c') ∨
      (r = .error .undefinedVariable ∧ c.rebind name v = none ∧ c' = c)) := by
  intro m e m' hm hrun
  unfold assign at hrun
  cases hassign : m.scopes.assign? name v with
  | none =>
    rw [hassign] at hrun
    cases hrun
    refine ⟨rfl, "", (Sink.printed_empty _).symm, rfl, Or.inr ⟨rfl, ?_, rfl⟩⟩
    rw [Scopes.rebind_chain, hassign, Option.map_none]
  | some s =>
    rw [hassign] at hrun
    cases hrun
    obtain ⟨-, -, -, hdepth, -⟩ := Scopes.exists_slot_of_assign? hassign
    refine ⟨hdepth, "", (Sink.printed_empty _).symm, rfl, Or.inl ⟨rfl, ?_⟩⟩
    rw [Scopes.rebind_chain, hassign, Option.map_some]

theorem obeys_assignTo (target n : Node) (v : Value) :
    Obeys (assignTo target v) fun c₁ r w₂ c₂ =>
      ∀ c w₁, Eval n c (.ok v) w₁ c₁ → Eval (.assign target n) c r (w₁ ++ w₂) c₂ := by
  by_cases h : ∃ name, target = .identifier name
  · obtain ⟨name, rfl⟩ := h
    refine (obeys_assign name v).bind_quiet ?_ fun _ => ?_
    · rintro c₁ k w₂ c₂ ⟨rfl, ⟨h, -⟩ | ⟨hk, hnone, rfl⟩⟩ c w₁ hn
      · cases h
      · cases hk
        rw [String.append_empty]
        exact .assignUndefined hn hnone
    · refine ((quiet_note _).bind_ok (quiet_pure v)).imp ?_
      rintro r rfl c₁ w₂ c₂ ⟨rfl, ⟨-, hsome⟩ | ⟨h, -⟩⟩ c w₁ hn
      · rw [String.append_empty]
        exact .assign hn hsome
      · cases h
  · have hno : ∀ name, target ≠ .identifier name := fun name hname => h ⟨name, hname⟩
    refine ((quiet_assignTo_of_no_target v hno).imp ?_).obeys
    rintro r rfl c₁ c w₁ hn
    rw [String.append_empty]
    exact .assignNoTarget hn hno

/-! ## Operators -/

variable {x y : Action Value} {l r : Node}

theorem Obeys.strict {op : Operator} (h : Strict op) (hx : Obeys x (Eval l))
    (hy : Obeys y (Eval r)) : Obeys (Action.binary op x y) (Eval (.binary op l r)) := by
  obtain ⟨f, hbinary, hf⟩ := quiet_strict h
  rw [hbinary]
  refine (quiet_note _).bind_obeys (hx.bind (fun c k w c' => .leftAborts) fun a => ?_)
  refine hy.bind_quiet (fun c₁ k w₂ c₂ hr c w₁ hl => .rightAborts h hl hr) fun b => ?_
  refine (hf a b).imp ?_
  intro res happ c₁ w₂ c₂ hr c w₁ hl
  exact .apply hl hr happ

/-- The value of an unsettled connective is that of its right operand. -/
theorem Obeys.unsettled {op : Connective} {b : Bool} (h : ¬Settles op b)
    (hy : Obeys y (Eval r)) :
    Obeys (y >>= fun v => booleanOperand op v >>= fun b => Pure.pure (Value.boolean b))
      fun c₁ res w₂ c₂ => ∀ c w₁, Eval l c (.ok (.boolean b)) w₁ c₁ →
        Eval (.binary (.connective op) l r) c res (w₁ ++ w₂) c₂ := by
  refine hy.bind_quiet (fun c₁ k w₂ c₂ hr c w₁ hl => .unsettled hl h hr) fun v => ?_
  have hres : Quiet (booleanOperand op v >>= fun b => Pure.pure (Value.boolean b))
      (· = (truth .typeMismatch (.ok v)).map .boolean) := by
    have hv := quiet_booleanOperand op v
    cases htruth : truth ErrorKind.typeMismatch (.ok v) with
    | error k =>
      rw [htruth] at hv
      exact hv.bind_error
    | ok b =>
      rw [htruth] at hv
      exact hv.bind_ok (quiet_pure _)
  refine hres.imp ?_
  rintro res rfl c₁ w₂ c₂ hr c w₁ hl
  exact .unsettled hl h hr

theorem Obeys.connective (op : Connective) (hx : Obeys x (Eval l)) (hy : Obeys y (Eval r)) :
    Obeys (Action.binary (.connective op) x y) (Eval (.binary (.connective op) l r)) := by
  refine (quiet_note _).bind_obeys (hx.bind (fun c k w c' => .leftAborts) fun a => ?_)
  have ha := quiet_booleanOperand op a
  by_cases hk : a.kind = .boolean
  · obtain ⟨b, rfl⟩ : ∃ b, a = .boolean b := by
      cases a <;> simp [Value.kind] at hk ⊢
    refine ha.bind_obeys ?_
    by_cases hb : Settles op b
    · rw [if_pos (settles_iff.1 hb)]
      refine (((quiet_note _).bind_ok (quiet_pure (Value.boolean b))).imp ?_).obeys
      rintro res rfl c₁ c w₁ hl
      rw [String.append_empty]
      exact .settled hl hb
    · rw [if_neg fun h => hb (settles_iff.2 h)]
      exact hy.unsettled hb
  · rw [truth_of_kind_ne hk] at ha
    refine (ha.bind_error.imp ?_).obeys
    rintro res rfl c₁ c w₁ hl
    rw [String.append_empty]
    exact .leftNotBoolean hl hk

theorem Obeys.binary (op : Operator) (hx : Obeys x (Eval l)) (hy : Obeys y (Eval r)) :
    Obeys (Action.binary op x y) (Eval (.binary op l r)) := by
  cases op with
  | connective op => exact hx.connective op hy
  | arithmetic op => exact hx.strict (fun _ h => by cases h) hy
  | comparison op => exact hx.strict (fun _ h => by cases h) hy
  | equal => exact hx.strict (fun _ h => by cases h) hy
  | notEqual => exact hx.strict (fun _ h => by cases h) hy

/-! ## Loops and blocks -/

theorem obeys_loop {laps : Nat} {t b : Node} (ht : Obeys (t.evaluate laps) (Eval t))
    (hb : Obeys (b.evaluate laps) (Eval b)) :
    ∀ spare count, Obeys (loop laps t b spare count) (Eval (.whileLoop t b))
  | 0, count => by
    intro m e m' hm hrun
    cases hrun
  | spare + 1, count => by
    rw [loop_succ]
    refine ht.condition_bind .loop (fun c res k w c' => .loopAborts) fun holds => ?_
    cases holds with
    | false =>
      refine (((quiet_note _).bind_ok (quiet_pure Value.unit)).imp ?_).obeys
      rintro r rfl c₁ c w₁ htest
      rw [String.append_empty]
      exact .loopEnds htest
    | true =>
      have hlap : Obeys (do let _ ← b.evaluate laps) fun c r w c' =>
          ∃ res, Eval b c res w c' ∧ r = res.map fun _ => () := by
        refine hb.bind_quiet (fun c k w c' h => ⟨_, h, rfl⟩) fun v => (quiet_pure ()).imp ?_
        rintro r rfl c w c' h
        exact ⟨_, h, rfl⟩
      refine hlap.inScope.bind ?_ fun _ => (obeys_loop ht hb spare (count + 1)).mono ?_
      · rintro c₁ k w₂ c₂ ⟨vars, res, hbody, hres⟩ c w₁ htest
        cases res with
        | ok v => cases hres
        | error k' =>
          cases hres
          exact .lapAborts htest hbody
      · rintro c₂ r w₃ c₃ hrest c₁ w₂ ⟨vars, res, hbody, hres⟩ c w₁ htest
        cases res with
        | ok v => exact .lap htest hbody hrest
        | error k => cases hres

theorem obeys_evaluateAll {laps : Nat} : ∀ (nodes : List Node) (last : Value),
    (∀ node ∈ nodes, Obeys (node.evaluate laps) (Eval node)) →
      Obeys (Node.evaluateAll laps last nodes) (EvalAll last nodes)
  | [], last, _ => by
    rw [Node.evaluateAll]
    refine ((quiet_pure last).imp ?_).obeys
    rintro r rfl c
    exact .nil
  | node :: nodes, last, h => by
    rw [Node.evaluateAll]
    refine (h node (List.mem_cons_self ..)).bind (fun c k w c' => .consAborts) fun v => ?_
    refine (obeys_evaluateAll nodes v fun n hn => h n (List.mem_cons_of_mem _ hn)).mono ?_
    intro c₁ r w₂ c₂ hrest c w₁ hnode
    exact .cons hnode hrest

end Action

namespace Node

open TreeScript.Action

/-- Every run of a node is derived by the rules. -/
theorem evaluate_obeys (laps : Nat) (n : Node) : Obeys (n.evaluate laps) (Eval n) := by
  induction n with
  | literal value =>
    rw [evaluate]
    refine (((quiet_pure value).imp ?_).obeys).visiting _
    rintro r rfl c
    exact .literal
  | print inner ih =>
    rw [evaluate]
    refine (ih.bind (fun c k w c' => .printAborts) fun v => ?_).visiting _
    refine (obeys_print v).bind_quiet ?_ fun _ => ?_
    · rintro c₁ k w₂ c₂ ⟨h, -⟩
      cases h
    · refine ((quiet_note _).bind_ok (quiet_pure v)).imp ?_
      rintro r rfl c₁ w₂ c₂ ⟨-, rfl, rfl⟩ c w₁ hinner
      exact .print hinner
  | binary op left right ihl ihr =>
    rw [evaluate]
    exact (ihl.binary op ihr).visiting _
  | ifThen test body iht ihb =>
    rw [evaluate]
    refine (iht.condition_bind .branch (fun c res k w c' => .ifThenAborts)
      fun holds => ?_).visiting _
    cases holds with
    | false =>
      refine ((quiet_pure Value.unit).imp ?_).obeys
      rintro r rfl c₁ c w₁ htest
      rw [String.append_empty]
      exact .ifThenFalse htest
    | true =>
      refine (quiet_note _).bind_obeys (ihb.inScope.mono ?_)
      rintro c₁ r w₂ c₂ ⟨vars, hbody⟩ c w₁ htest
      exact .ifThenTrue htest hbody
  | ifElse test body otherwise iht ihb iho =>
    rw [evaluate]
    refine (iht.condition_bind .branch (fun c res k w c' => .ifElseAborts)
      fun holds => ?_).visiting _
    cases holds with
    | false =>
      refine (quiet_note _).bind_obeys (iho.inScope.mono ?_)
      rintro c₁ r w₂ c₂ ⟨vars, hbody⟩ c w₁ htest
      exact .ifElseFalse htest hbody
    | true =>
      refine (quiet_note _).bind_obeys (ihb.inScope.mono ?_)
      rintro c₁ r w₂ c₂ ⟨vars, hbody⟩ c w₁ htest
      exact .ifElseTrue htest hbody
  | whileLoop test body iht ihb =>
    rw [evaluate_whileLoop]
    exact (obeys_loop iht ihb laps 0).visiting _
  | block nodes ih =>
    rw [evaluate]
    have hall := (obeys_evaluateAll nodes .unit ih).inScope
    refine ((quiet_note _).bind_obeys (hall.mono ?_)).visiting _
    rintro c r w c' ⟨vars, h⟩
    exact .block h
  | var name =>
    rw [evaluate]
    refine ((obeys_declare name).bind_quiet ?_ fun _ => ?_).visiting _
    · rintro c k w c' ⟨h, -⟩
      cases h
    · refine ((quiet_note _).bind_ok (quiet_pure Value.unit)).imp ?_
      rintro r rfl c w c' ⟨-, rfl, rfl⟩
      exact .var
  | identifier name =>
    rw [evaluate]
    exact (obeys_get name).visiting _
  | assign target value _ ihv =>
    rw [evaluate]
    exact (ihv.bind (fun c k w c' => .assignAborts) (obeys_assignTo target value)).visiting _
  | inspect inner ih =>
    rw [evaluate]
    exact (ih.mono fun c r w c' => .inspect).visiting _

/-- On a sink without a limit, a node returns an outcome, a printed text and scopes just
where they are derived of it on the linked scopes, and nothing is derived that does not
stand for a stack of scopes. -/
theorem returns_iff_eval {n : Node} {m : Machine} (hm : m.sink.capacity = none) :
    (∀ r w s, (∃ e m', n.Returns m e m' ∧ e.mapError RuntimeError.kind = r ∧
        m'.sink = m.sink.printed w ∧ m'.scopes = s) ↔ Eval n m.scopes.chain r w s.chain) ∧
      ∀ r w c', Eval n m.scopes.chain r w c' → ∃ s : Scopes, c' = s.chain := by
  have hreach : ∀ {r w c'}, Eval n m.scopes.chain r w c' → ∃ e m', n.Returns m e m' ∧
      e.mapError RuntimeError.kind = r ∧ m'.sink = m.sink.printed w ∧ m'.scopes.chain = c' := by
    intro r w c' h
    obtain ⟨laps, hlaps⟩ := h.reaches.evaluate.exists
    obtain ⟨e, s, j, hrun, he, hs⟩ := hlaps m hm rfl
    exact ⟨e, _, ⟨laps, hrun⟩, he, rfl, hs⟩
  refine ⟨fun r w s => ⟨?_, fun h => ?_⟩, fun r w c' h => ?_⟩
  · rintro ⟨e, m', ⟨laps, hrun⟩, rfl, hsink, rfl⟩
    obtain ⟨-, w', hsink', heval⟩ := evaluate_obeys laps n m e m' hm hrun
    rwa [m.sink.printed_injective (hsink.symm.trans hsink')]
  · obtain ⟨e, m', hrun, he, hsink, hs⟩ := hreach h
    exact ⟨e, m', hrun, he, hsink, Scopes.chain_injective hs⟩
  · obtain ⟨e, m', -, -, -, hs⟩ := hreach h
    exact ⟨m'.scopes, hs.symm⟩

/-- A loop of one lap that prints and assigns, derived by hand. -/
theorem returns_iff_eval_loop :
    let m : Machine := ⟨⟨Frame.empty.insert "x" (.boolean true), []⟩, .unlimited, .off⟩
    let n : Node := .whileLoop (.identifier "x")
      (.assign (.identifier "x") (.print (.literal (.boolean false))))
    let s : Scopes := ⟨Frame.empty.insert "x" (.boolean false), []⟩
    m.sink.capacity = none ∧ Eval n m.scopes.chain (.ok .unit) "false\n" s.chain ∧
      ∃ e m', n.Returns m e m' ∧ e.mapError RuntimeError.kind = .ok .unit ∧
        m'.sink = m.sink.printed "false\n" ∧ m'.scopes = s := by
  intro m n s
  have hrebind : m.scopes.push.chain.rebind "x" (.boolean false) = some s.push.chain := by
    rw [Scopes.rebind_chain]
    rfl
  have htest : ∀ b, Scopes.get? ⟨Frame.empty.insert "x" (.boolean b), []⟩ "x" =
      some (.boolean b) := by
    intro b
    rfl
  have hlap : Eval n m.scopes.chain (.ok .unit) ("" ++ (("" ++ ("false" ++ "\n")) ++ ""))
      s.chain := by
    refine .lap (.identifier ?_) (.assign (.print .literal) hrebind) (.loopEnds (.identifier ?_))
    · exact (Scopes.lookup_chain m.scopes "x").trans (htest true)
    · exact (Scopes.lookup_chain s "x").trans (htest false)
  exact ⟨rfl, hlap, ((returns_iff_eval rfl).1 _ _ _).2 hlap⟩

end Node

end TreeScript
