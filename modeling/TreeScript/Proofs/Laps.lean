import Mathlib.Order.Filter.AtTopBot.Basic
import TreeScript.Proofs.Visits

/-!
# Laps

`Node.Laps test body m starts m'` says that a loop that stands at `m` takes a number of laps,
which start from the given machines, and then stands at `m'`. It speaks of the test and the body
by themselves, and of no bound on laps.

A loop that stands where its condition does not hold has taken these laps, and no others
(`Node.Laps.ends`). One that stands where its condition holds goes on with another one
(`Node.Laps.goes_on`).
-/

open Filter

namespace TreeScript.Node

open Calling

variable {test body : Node} {m m' m₁ m₂ : Machine} {v : Value} {starts : List Machine}
  {laps : Nat}

/-- With a large enough bound on the laps, a node does what it does. -/
theorem Returns.eventually {n : Node} {r : Except RuntimeError Value} (h : n.Returns m r m') :
    ∀ᶠ laps in atTop, n.evaluate laps m = some (r, m') := by
  obtain ⟨laps, h⟩ := h
  exact eventually_atTop.2 ⟨laps, fun laps' hle => evaluate_extends hle n _ _ h⟩

/-- From one machine to another a loop takes laps that start from the machines in between. -/
inductive Laps (test body : Node) (m : Machine) : List Machine → Machine → Prop where
  | none : Laps test body m [] m
  | next {starts : List Machine} {m' m₁ m₂ : Machine} {v : Value} : Laps test body m starts m' →
    test.Returns m' (.ok (.boolean true)) m₁ → body.Returns m₁.opened (.ok v) m₂ →
      Laps test body m (starts ++ [m₁.opened]) m₂.closed

/-! ## One lap -/

theorem run_testing {holds : Bool} (h : test.evaluate laps m = some (.ok (.boolean holds), m₁))
    (body : Node) : (testing laps test body).run m = some (.ok holds, m₁) :=
  Action.bind_ok h

theorem run_lapping (h : body.evaluate laps m.opened = some (.ok v, m₁)) (test : Node) :
    (lapping laps test body).run m = some (.ok (), m₁.closed) :=
  Action.inScope_eq_some_iff.2 ⟨m₁, Action.bind_ok h, rfl⟩

/-- A test is no call of the body. -/
theorem starts_testing : (testing laps test body).starts 1 m = [] := by
  refine (starts_bind_of_forall fun _ _ => starts_silent _).trans ?_
  rw [starts_call, if_neg zero_ne_one]

theorem starts_lapping : (lapping laps test body).starts 1 m = [m.opened] := by
  rw [lapping, starts_inScope]
  refine (starts_bind_of_forall fun _ _ => starts_silent _).trans ?_
  rw [starts_call, if_pos rfl]

/-- Where the condition holds, a lap starts. -/
theorem mem_starts_looping (htest : test.evaluate laps m = some (.ok (.boolean true), m₁))
    (body : Node) (spare count : Nat) :
    m₁.opened ∈ (looping laps test body (spare + 1) count).starts 1 m := by
  have hstart : m₁.opened ∈ (lapping laps test body).starts 1 m₁ := by
    rw [starts_lapping]
    exact List.mem_singleton_self _
  have hmore := calls_subset_bind (lapping laps test body)
    (fun _ => looping laps test body spare (count + 1)) m₁
  rw [looping, repeatWhile, starts_bind_of_ok (run_testing htest body)]
  exact List.mem_append_right _ (mem_starts.2 (hmore (mem_starts.1 hstart)))

/-- A lap that ends is followed by the rest of the loop. -/
theorem looping_lap (htest : test.evaluate laps m = some (.ok (.boolean true), m₁))
    (hbody : body.evaluate laps m₁.opened = some (.ok v, m₂)) (spare count : Nat) :
    (looping laps test body (spare + 1) count).run m =
        (looping laps test body spare (count + 1)).run m₂.closed ∧
      (looping laps test body (spare + 1) count).starts 1 m =
        m₁.opened :: (looping laps test body spare (count + 1)).starts 1 m₂.closed := by
  have htest := run_testing htest body
  have hlap := run_lapping hbody test
  rw [looping, repeatWhile]
  constructor
  · exact (Action.bind_ok htest).trans (Action.bind_ok hlap)
  · rw [starts_bind_of_ok htest, starts_testing, List.nil_append, if_pos rfl,
      starts_bind_of_ok hlap, starts_lapping]
    rfl

/-- Where the condition does not hold, there is no lap. -/
theorem looping_end (htest : test.evaluate laps m = some (.ok (.boolean false), m₁)) (body : Node)
    (spare count : Nat) : (looping laps test body (spare + 1) count).run m = some (.ok count, m₁) ∧
      (looping laps test body (spare + 1) count).starts 1 m = [] := by
  have htest := run_testing htest body
  rw [looping, repeatWhile]
  constructor
  · exact Action.bind_ok htest
  · rw [starts_bind_of_ok htest, starts_testing]
    rfl

/-! ## All laps -/

theorem starts_whileLoop : (whileLoop test body).starts laps 1 m =
    (looping laps test body laps 0).starts 1 ((whileLoop test body).entered m) :=
  starts_bind_of_forall fun _ _ => rfl

namespace Laps

/-- The loop does after these laps what it does before them, with as many less to spare. -/
theorem looping (h : Laps test body m starts m') : ∀ᶠ laps in atTop, ∀ spare count,
    (Node.looping laps test body (spare + starts.length) count).run m =
        (Node.looping laps test body spare (count + starts.length)).run m' ∧
      (Node.looping laps test body (spare + starts.length) count).starts 1 m =
        starts ++ (Node.looping laps test body spare (count + starts.length)).starts 1 m' := by
  induction h with
  | none => exact .of_forall fun _ _ _ => ⟨rfl, rfl⟩
  | @next starts m' m₁ m₂ v _ htest hbody ih =>
    filter_upwards [ih, htest.eventually, hbody.eventually] with laps ih htest hbody spare count
    -- the new lap is the last one, so the laps before it have one more to spare
    obtain ⟨hrun, hstarts⟩ := ih (spare + 1) count
    obtain ⟨hrun', hstarts'⟩ := looping_lap htest hbody spare (count + starts.length)
    have hspare : spare + (starts ++ [m₁.opened]).length = spare + 1 + starts.length := by
      rw [List.length_append, List.length_singleton]
      omega
    have hcount : count + (starts ++ [m₁.opened]).length = count + starts.length + 1 := by
      rw [List.length_append, List.length_singleton]
      omega
    rw [hspare, hcount]
    exact ⟨hrun.trans hrun', by rw [hstarts, hstarts', List.append_assoc]; rfl⟩

/-- With a large enough bound there is a lap to spare after these laps. -/
theorem exists_spare (h : Laps test body ((whileLoop test body).entered m) starts m') :
    ∀ᶠ laps in atTop, ∃ spare,
      (Node.looping laps test body laps 0).run ((whileLoop test body).entered m) =
          (Node.looping laps test body (spare + 1) starts.length).run m' ∧
        (whileLoop test body).starts laps 1 m =
          starts ++ (Node.looping laps test body (spare + 1) starts.length).starts 1 m' := by
  filter_upwards [h.looping, eventually_gt_atTop starts.length] with laps hlaps hlt
  obtain ⟨spare, hspare⟩ : ∃ spare, laps = spare + 1 + starts.length :=
    ⟨laps - starts.length - 1, by omega⟩
  obtain ⟨hrun, hstarts⟩ := hlaps (spare + 1) 0
  rw [← hspare, Nat.zero_add] at hrun hstarts
  exact ⟨spare, hrun, starts_whileLoop.trans hstarts⟩

/-- A loop that stands where its condition does not hold ends, and has taken no other laps. -/
theorem ends (h : Laps test body ((whileLoop test body).entered m) starts m')
    (hend : test.Returns m' (.ok (.boolean false)) m₁) :
    ∃ m₂, ∀ᶠ laps in atTop, (whileLoop test body).evaluate laps m = some (.ok .unit, m₂) ∧
      (whileLoop test body).starts laps 1 m = starts := by
  let exited := m₁.journal.note (.loopExited starts.length)
  refine ⟨{ m₁ with journal := exited.note (.nodeLeft .whileLoop .unit) }, ?_⟩
  filter_upwards [h.exists_spare, hend.eventually] with laps ⟨spare, hrun, hstarts⟩ hend
  obtain ⟨hrun', hstarts'⟩ := looping_end hend body spare starts.length
  constructor
  · have hwork : ((whileLoop test body).work laps ((whileLoop test body).childEvaluation laps)).run
        ((whileLoop test body).entered m) = some (.ok .unit, { m₁ with journal := exited }) :=
      (Action.bind_ok (hrun.trans hrun')).trans rfl
    rw [evaluate_eq_bind]
    exact (Action.bind_ok hwork).trans rfl
  · rw [hstarts, hstarts', List.append_nil]

/-- A loop that stands where its condition holds starts another lap. -/
theorem goes_on (h : Laps test body ((whileLoop test body).entered m) starts m')
    (htest : test.Returns m' (.ok (.boolean true)) m₁) :
    ∀ᶠ laps in atTop, m₁.opened ∈ (whileLoop test body).starts laps 1 m := by
  filter_upwards [h.exists_spare, htest.eventually] with laps ⟨spare, _, hstarts⟩ htest
  rw [hstarts]
  exact List.mem_append_right _ (mem_starts_looping htest body spare starts.length)

end Laps

end TreeScript.Node
