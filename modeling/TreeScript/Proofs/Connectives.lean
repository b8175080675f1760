import TreeScript.Proofs.Equivalence

/-!
# Operands of connectives

Three operands of one connective may be grouped to the left or to the right
(`Node.equivalent_connective_assoc`). Apart from its records, a connective puts its operands to
the test one after the other, and stops at the first that settles the result
(`Action.matches_connective`). Such sequences of tests are associative, by the laws of actions
(`Action.settling_assoc`). The outer connective tests the result of the inner one once more,
which changes nothing, since that result is a boolean (`Action.operand_boolean`).
-/

namespace TreeScript

namespace Action

/-! ## Sequences of tests -/

/-- An operand of a connective, evaluated and found to be a boolean. -/
def operand (op : Connective) (x : Action Value) : Action Bool :=
  x >>= booleanOperand op

/-- Goes on to a second operand, unless the first one settles the result. -/
def settling (op : Connective) (x y : Action Bool) : Action Bool :=
  x >>= fun a => if a = op.settledBy then Pure.pure a else y

/-- A result that is settled before the last operand stays so, however the operands are
grouped. -/
theorem settling_assoc (op : Connective) (x y z : Action Bool) :
    settling op (settling op x y) z = settling op x (settling op y z) := by
  unfold settling
  rw [bind_assoc]
  refine congrArg _ (funext fun a => ?_)
  split
  · rename_i hsettled
    rw [pure_bind, if_pos hsettled]
  · rfl

/-- A boolean passes the test as it is. -/
theorem operand_boolean (op : Connective) (x : Action Bool) :
    operand op (x >>= fun a => Pure.pure (.boolean a)) = x := by
  have htest : ∀ a, (Pure.pure (.boolean a) : Action Value) >>= booleanOperand op =
      Pure.pure a := fun _ => rfl
  unfold operand
  rw [bind_assoc]
  simp only [htest]
  exact bind_pure x

/-! ## Connectives without their records -/

theorem Matches.operand {x x' : Action Value} (op : Connective) (h : Matches Eq Eq x x') :
    Matches Eq Eq (operand op x) (operand op x') := by
  have hP := (compositional_matches Eq).congruence
  exact hP.bind h fun value => hP.booleanOperand op value

theorem Matches.settling {x x' y y' : Action Bool} (op : Connective) (hx : Matches Eq Eq x x')
    (hy : Matches Eq Eq y y') : Matches Eq Eq (settling op x y) (settling op x' y') := by
  have hP := compositional_matches Eq
  refine hP.bind hx fun a => ?_
  split
  · exact hP.pure a
  · exact hy

/-- A connective tests its operands in turn. -/
theorem matches_connective (op : Connective) {x x' y y' : Action Value}
    (hx : Matches Eq Eq x x') (hy : Matches Eq Eq y y') :
    Matches Eq Eq (binary (.connective op) x y)
      (settling op (operand op x') (operand op y') >>= fun a => Pure.pure (.boolean a)) := by
  have hP := (compositional_matches Eq).congruence
  refine Matches.note_left ?_ _
  unfold Action.settling Action.operand
  rw [bind_assoc, bind_assoc]
  refine hP.bind hx fun value => hP.bind (hP.booleanOperand op value) fun a => ?_
  split
  · rw [pure_bind]
    exact (hP.pure _).note_left _
  · rw [bind_assoc]
    exact hP.bind hy fun value => hP.bind (hP.booleanOperand op value) fun b => hP.pure _

end Action

namespace Node

open TreeScript.Action

/-- What a node does as an operand of a connective. -/
def tests (laps : Nat) (op : Connective) (n : Node) : Action Bool :=
  operand op (n.evaluate laps)

theorem matches_tests (laps : Nat) (op : Connective) (n : Node) :
    Matches Eq Eq (n.tests laps op) (n.tests laps op) :=
  (matches_evaluate laps n).operand op

theorem matches_evaluate_connective (laps : Nat) (op : Connective) (a b : Node) :
    Matches Eq Eq ((binary (.connective op) a b).evaluate laps)
      (settling op (a.tests laps op) (b.tests laps op) >>= fun value =>
        Pure.pure (.boolean value)) := by
  simp only [evaluate]
  exact (matches_connective op (matches_evaluate laps a) (matches_evaluate laps b)).visiting_left _

/-- As an operand of the same connective, a connective is no more than its own operands. -/
theorem matches_tests_connective (laps : Nat) (op : Connective) (a b : Node) :
    Matches Eq Eq ((binary (.connective op) a b).tests laps op)
      (settling op (a.tests laps op) (b.tests laps op)) := by
  have h := (matches_evaluate_connective laps op a b).operand op
  rwa [operand_boolean] at h

/-- Operands of one connective may be grouped to the left or to the right, whatever they print,
declare and assign, and whether or not they fail or are booleans. -/
theorem equivalent_connective_assoc (op : Connective) (a b c : Node) :
    Equivalent (binary (.connective op) (binary (.connective op) a b) c)
      (binary (.connective op) a (binary (.connective op) b c)) := by
  have hP := compositional_matches Eq
  refine equivalent_of_matches fun laps => ?_
  have hleft : Matches Eq Eq
      (settling op ((binary (.connective op) a b).tests laps op) (c.tests laps op))
      (settling op (settling op (a.tests laps op) (b.tests laps op)) (c.tests laps op)) :=
    (matches_tests_connective laps op a b).settling op (matches_tests laps op c)
  have hright : Matches Eq Eq
      (settling op (a.tests laps op) ((binary (.connective op) b c).tests laps op))
      (settling op (a.tests laps op) (settling op (b.tests laps op) (c.tests laps op))) :=
    (matches_tests laps op a).settling op (matches_tests_connective laps op b c)
  rw [settling_assoc] at hleft
  have houter := (hleft.trans hright.symm).bind (fun _ _ hs => hs) fun value =>
    hP.pure (Value.boolean value)
  exact ((matches_evaluate_connective laps op _ c).trans houter).trans
    (matches_evaluate_connective laps op a _).symm

end Node

end TreeScript
