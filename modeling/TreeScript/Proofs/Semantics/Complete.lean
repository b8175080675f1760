import Mathlib.Order.Filter.AtTopBot.Finite
import TreeScript.Proofs.Semantics.Judgments

/-!
# Derivations are run

Whatever the rules of evaluation derive, a run arrives at, with every bound on the laps
from some number on (`Eval.reaches`). The induction is on the derivation. One that ends a
loop speaks of the laps that are left of a loop already running, so that
`Node.Reaches` lets the parts of a loop have a bound of their own.
-/

open Filter

namespace TreeScript

namespace Action

/-- A loop that has taken `count` laps and may take `spare` more, where the loops inside
are bounded by `laps`. -/
def loop (laps : Nat) (test body : Node) (spare count : Nat) : Action Value := do
  let count ← repeatWhile (condition .loop (test.evaluate laps))
    (inScope do let _ ← body.evaluate laps) spare count
  note (.loopExited count)
  return .unit

/-- A loop tests its condition, and then ends or takes a lap. -/
theorem loop_succ (laps : Nat) (test body : Node) (spare count : Nat) :
    loop laps test body (spare + 1) count =
      condition .loop (test.evaluate laps) >>= fun holds =>
        if holds then
          (inScope do let _ ← body.evaluate laps) >>= fun _ =>
            loop laps test body spare (count + 1)
        else note (.loopExited count) >>= fun _ => Pure.pure .unit := by
  unfold loop
  rw [repeatWhile_succ, bind_assoc]
  congr
  funext holds
  cases holds with
  | false => rfl
  | true => simp only [↓reduceIte, bind_assoc]

end Action

namespace Node

open TreeScript.Action

theorem evaluate_whileLoop (laps : Nat) (test body : Node) :
    (whileLoop test body).evaluate laps = visiting .whileLoop (loop laps test body laps 0) := by
  rw [evaluate]
  rfl

/-- A node reaches what it does with every bound from some number on. A loop does so
from any count on, and also where the loops inside have a larger bound. -/
def Reaches (n : Node) : Judgment Value :=
  match n with
  | .whileLoop test body => fun c r w c' =>
    ∀ᶠ spare in atTop, ∀ laps ≥ spare, ∀ count, (loop laps test body spare count).Reaches c r w c'
  | n => fun c r w c' => ∀ᶠ laps in atTop, (n.evaluate laps).Reaches c r w c'

theorem Reaches.evaluate {n : Node} {c c' : Chain} {r : Except ErrorKind Value} {w : String}
    (h : n.Reaches c r w c') : ∀ᶠ laps in atTop, (n.evaluate laps).Reaches c r w c' := by
  cases n with
  | whileLoop test body =>
    filter_upwards [h] with laps hloop
    rw [evaluate_whileLoop]
    exact (hloop laps (le_refl laps) 0).visiting _
  | _ => exact h

theorem Reaches.of_loop_succ {t b : Node} {c c' : Chain} {r : Except ErrorKind Value}
    {w : String} (h : ∀ᶠ spare in atTop, ∀ laps ≥ spare, ∀ count,
      (loop laps t b (spare + 1) count).Reaches c r w c') :
    (whileLoop t b).Reaches c r w c' := by
  show ∀ᶠ spare in atTop, ∀ laps ≥ spare, ∀ count, (loop laps t b spare count).Reaches c r w c'
  rw [← map_add_atTop_eq_nat 1, eventually_map]
  filter_upwards [h] with spare hspare laps hle
  exact hspare laps (Nat.le_of_succ_le hle)

end Node

namespace Action

variable {x y : Action Value} {c c₁ c' : Chain} {a b : Value} {w w₁ w₂ : String}

/-! ## Operators -/

theorem Reaches.left_aborts {k : ErrorKind} (op : Operator) (hx : Reaches x c (.error k) w c') :
    Reaches (binary op x y) c (.error k) w c' :=
  (quiet_note _).bind_reaches hx.bind_error

theorem Reaches.right_aborts {op : Operator} {k : ErrorKind} (h : Strict op)
    (hx : Reaches x c (.ok a) w₁ c₁) (hy : Reaches y c₁ (.error k) w₂ c') :
    Reaches (binary op x y) c (.error k) (w₁ ++ w₂) c' := by
  obtain ⟨f, hbinary, -⟩ := quiet_strict h
  rw [hbinary]
  exact (quiet_note _).bind_reaches (hx.bind_ok hy.bind_error)

theorem Reaches.apply {op : Operator} {r : Except ErrorKind Value} (h : Applies op a b r)
    (hx : Reaches x c (.ok a) w₁ c₁) (hy : Reaches y c₁ (.ok b) w₂ c') :
    Reaches (binary op x y) c r (w₁ ++ w₂) c' := by
  obtain ⟨f, hbinary, hf⟩ := quiet_strict h.strict
  rw [hbinary]
  have hr : Quiet (f a b) (· = r) := (hf a b).imp fun r' h' => h'.unique h
  exact (quiet_note _).bind_reaches (hx.bind_ok (hy.bind_quiet hr))

theorem Reaches.left_not_boolean (op : Connective) (h : a.kind ≠ .boolean)
    (hx : Reaches x c (.ok a) w c') :
    Reaches (binary (.connective op) x y) c (.error .typeMismatch) w c' := by
  have ha : Quiet (booleanOperand op a) (· = .error .typeMismatch) := by
    have hq := quiet_booleanOperand op a
    rwa [truth_of_kind_ne h] at hq
  exact (quiet_note _).bind_reaches (hx.bind_quiet ha.bind_error)

theorem Reaches.settled {op : Connective} {b : Bool} (h : Settles op b)
    (hx : Reaches x c (.ok (.boolean b)) w c') :
    Reaches (binary (.connective op) x y) c (.ok (.boolean b)) w c' := by
  have hb : Quiet (connective op (.boolean b) y) (· = .ok (.boolean b)) := by
    refine (quiet_booleanOperand op (.boolean b)).bind_ok ?_
    rw [if_pos (settles_iff.1 h)]
    exact (quiet_note _).bind_ok (quiet_pure _)
  exact (quiet_note _).bind_reaches (hx.bind_quiet hb)

theorem Reaches.unsettled {op : Connective} {b : Bool} {r : Except ErrorKind Value}
    (h : ¬Settles op b) (hx : Reaches x c (.ok (.boolean b)) w₁ c₁) (hy : Reaches y c₁ r w₂ c') :
    Reaches (binary (.connective op) x y) c ((truth .typeMismatch r).map .boolean)
      (w₁ ++ w₂) c' := by
  refine (quiet_note _).bind_reaches (hx.bind_ok ?_)
  refine (quiet_booleanOperand op (.boolean b)).bind_reaches ?_
  rw [if_neg fun hb => h (settles_iff.2 hb)]
  cases r with
  | error k => exact hy.bind_error
  | ok v =>
    have hv := quiet_booleanOperand op v
    refine hy.bind_quiet ?_
    cases htruth : truth ErrorKind.typeMismatch (.ok v) with
    | error k =>
      rw [htruth] at hv
      exact hv.bind_error
    | ok b =>
      rw [htruth] at hv
      exact hv.bind_ok (quiet_pure _)

end Action

open TreeScript.Action

/-! ## Derivations -/

mutual

/-- Whatever is derived of a node is what its evaluation reaches. -/
theorem Eval.reaches {n : Node} {c c' : Chain} {r : Except ErrorKind Value} {w : String} :
    Eval n c r w c' → n.Reaches c r w c'
  | .literal => by
    refine .of_forall fun laps => ?_
    rw [Node.evaluate]
    exact ((quiet_pure _).reaches _).visiting _
  | .print h => by
    refine h.reaches.evaluate.mono fun laps ih => ?_
    rw [Node.evaluate]
    refine (ih.bind_ok ?_).visiting _
    exact (reaches_print _ _).bind_quiet ((quiet_note _).bind_ok (quiet_pure _))
  | .printAborts h => by
    refine h.reaches.evaluate.mono fun laps ih => ?_
    rw [Node.evaluate]
    exact ih.bind_error.visiting _
  | .leftAborts h => by
    refine h.reaches.evaluate.mono fun laps ih => ?_
    rw [Node.evaluate]
    exact (ih.left_aborts _).visiting _
  | .rightAborts hop hl hr => by
    filter_upwards [hl.reaches.evaluate, hr.reaches.evaluate] with laps ihl ihr
    rw [Node.evaluate]
    exact (ihl.right_aborts hop ihr).visiting _
  | .apply hl hr happ => by
    filter_upwards [hl.reaches.evaluate, hr.reaches.evaluate] with laps ihl ihr
    rw [Node.evaluate]
    exact (ihl.apply happ ihr).visiting _
  | .leftNotBoolean h hk => by
    refine h.reaches.evaluate.mono fun laps ih => ?_
    rw [Node.evaluate]
    exact (ih.left_not_boolean _ hk).visiting _
  | .settled h hs => by
    refine h.reaches.evaluate.mono fun laps ih => ?_
    rw [Node.evaluate]
    exact (ih.settled hs).visiting _
  | .unsettled hl hs hr => by
    filter_upwards [hl.reaches.evaluate, hr.reaches.evaluate] with laps ihl ihr
    rw [Node.evaluate]
    exact (ihl.unsettled hs ihr).visiting _
  | .ifThenAborts h hres => by
    refine h.reaches.evaluate.mono fun laps ih => ?_
    have htest := ih.condition .branch
    rw [hres] at htest
    rw [Node.evaluate]
    exact htest.bind_error.visiting _
  | .ifThenTrue ht hb => by
    filter_upwards [ht.reaches.evaluate, hb.reaches.evaluate] with laps iht ihb
    rw [Node.evaluate]
    refine ((iht.condition .branch).bind_ok ?_).visiting _
    exact (quiet_note _).bind_reaches ihb.inScope
  | .ifThenFalse h => by
    refine h.reaches.evaluate.mono fun laps ih => ?_
    rw [Node.evaluate]
    exact ((ih.condition .branch).bind_quiet (quiet_pure Value.unit)).visiting _
  | .ifElseAborts h hres => by
    refine h.reaches.evaluate.mono fun laps ih => ?_
    have htest := ih.condition .branch
    rw [hres] at htest
    rw [Node.evaluate]
    exact htest.bind_error.visiting _
  | .ifElseTrue ht hb => by
    filter_upwards [ht.reaches.evaluate, hb.reaches.evaluate] with laps iht ihb
    rw [Node.evaluate]
    refine ((iht.condition .branch).bind_ok ?_).visiting _
    exact (quiet_note _).bind_reaches ihb.inScope
  | .ifElseFalse ht hb => by
    filter_upwards [ht.reaches.evaluate, hb.reaches.evaluate] with laps iht ihb
    rw [Node.evaluate]
    refine ((iht.condition .branch).bind_ok ?_).visiting _
    exact (quiet_note _).bind_reaches ihb.inScope
  | .loopAborts h hres => by
    refine .of_loop_succ ?_
    filter_upwards [eventually_forall_ge_atTop.2 h.reaches.evaluate] with spare ih laps hle count
    have htest := (ih laps hle).condition .loop
    rw [hres] at htest
    rw [loop_succ]
    exact htest.bind_error
  | .loopEnds h => by
    refine .of_loop_succ ?_
    filter_upwards [eventually_forall_ge_atTop.2 h.reaches.evaluate] with spare ih laps hle count
    rw [loop_succ]
    exact ((ih laps hle).condition .loop).bind_quiet ((quiet_note _).bind_ok (quiet_pure _))
  | .lapAborts ht hb => by
    refine .of_loop_succ ?_
    filter_upwards [eventually_forall_ge_atTop.2 ht.reaches.evaluate,
      eventually_forall_ge_atTop.2 hb.reaches.evaluate] with spare iht ihb laps hle count
    rw [loop_succ]
    refine ((iht laps hle).condition .loop).bind_ok ?_
    exact (ihb laps hle).bind_error.inScope.bind_error
  | .lap ht hb hloop => by
    have ih : ∀ᶠ spare in atTop, ∀ laps ≥ spare, ∀ count,
      Action.Reaches (loop laps _ _ spare count) _ _ _ _ := hloop.reaches
    refine .of_loop_succ ?_
    filter_upwards [eventually_forall_ge_atTop.2 ht.reaches.evaluate,
      eventually_forall_ge_atTop.2 hb.reaches.evaluate, ih] with spare iht ihb ihloop laps hle count
    rw [loop_succ]
    refine ((iht laps hle).condition .loop).bind_ok ?_
    have hlap := ((ihb laps hle).bind_quiet (f := fun _ => Pure.pure ()) (quiet_pure ())).inScope
    exact hlap.bind_ok (ihloop laps hle (count + 1))
  | .block h => by
    refine h.reaches.mono fun laps ih => ?_
    rw [Node.evaluate]
    exact ((quiet_note _).bind_reaches ih.inScope).visiting _
  | .var => by
    refine .of_forall fun laps => ?_
    rw [Node.evaluate]
    refine ((reaches_declare _ _).bind_quiet ?_).visiting _
    exact (quiet_note _).bind_ok (quiet_pure _)
  | .identifier h => by
    refine .of_forall fun laps => ?_
    rw [Node.evaluate]
    exact (reaches_get h).visiting _
  | .undefined h => by
    refine .of_forall fun laps => ?_
    rw [Node.evaluate]
    exact (reaches_get_undefined h).visiting _
  | .assignAborts h => by
    refine h.reaches.evaluate.mono fun laps ih => ?_
    rw [Node.evaluate]
    exact ih.bind_error.visiting _
  | .assign h hx => by
    refine h.reaches.evaluate.mono fun laps ih => ?_
    rw [Node.evaluate]
    refine (ih.bind_silent ?_).visiting _
    exact (reaches_assign hx).bind_quiet ((quiet_note _).bind_ok (quiet_pure _))
  | .assignUndefined h hx => by
    refine h.reaches.evaluate.mono fun laps ih => ?_
    rw [Node.evaluate]
    exact (ih.bind_silent (reaches_assign_undefined hx).bind_error).visiting _
  | .assignNoTarget h hx => by
    refine h.reaches.evaluate.mono fun laps ih => ?_
    rw [Node.evaluate]
    exact (ih.bind_quiet (quiet_assignTo_of_no_target _ hx)).visiting _
  | .inspect h => by
    refine h.reaches.evaluate.mono fun laps ih => ?_
    rw [Node.evaluate]
    exact ih.visiting _

theorem EvalAll.reaches {v : Value} {ns : List Node} {c c' : Chain}
    {r : Except ErrorKind Value} {w : String} : EvalAll v ns c r w c' →
      ∀ᶠ laps in atTop, (Node.evaluateAll laps v ns).Reaches c r w c'
  | .nil => by
    refine .of_forall fun laps => ?_
    rw [Node.evaluateAll]
    exact (quiet_pure _).reaches _
  | .consAborts h => by
    refine h.reaches.evaluate.mono fun laps ih => ?_
    rw [Node.evaluateAll]
    exact ih.bind_error
  | .cons h hs => by
    filter_upwards [h.reaches.evaluate, hs.reaches] with laps ih ihs
    rw [Node.evaluateAll]
    exact ih.bind_ok ihs

end

end TreeScript
