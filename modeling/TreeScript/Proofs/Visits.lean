import TreeScript.Proofs.Unreached

/-!
# Where evaluations start

The evaluations of the node at a position, in a run of the whole tree, are told by the machines
that they start from, in order (`Node.visits`). A run that is cut off has the visits up to there.
They follow the calls on the way down, of which `Calling.starts` keeps those of one place.

A node of a block is called once, from where the nodes before it end (`Node.starts_block`).
-/

namespace TreeScript

namespace Calling

variable {α β : Type}

/-- The machines that the calls of one place start from, in order. -/
def starts (x : Calling α) (place : Nat) (m : Machine) : List Machine :=
  ((x.calls m).filter (·.place = place)).map (·.start)

variable {x : Calling α} {f : α → Calling β} {place : Nat} {m m₁ : Machine}

theorem mem_starts {s : Machine} : s ∈ x.starts place m ↔ ⟨place, s⟩ ∈ x.calls m := by
  unfold starts
  rw [List.mem_map]
  constructor
  · rintro ⟨⟨place', s'⟩, hmem, rfl⟩
    obtain ⟨hcall, hplace⟩ := List.mem_filter.1 hmem
    obtain rfl := of_decide_eq_true hplace
    exact hcall
  · exact fun h => ⟨⟨place, s⟩, List.mem_filter.2 ⟨h, decide_eq_true rfl⟩, rfl⟩

theorem starts_silent (x : Action α) : (silent x).starts place m = [] :=
  rfl

theorem starts_inScope (x : Calling α) : (inScope x).starts place m = x.starts place m.opened :=
  rfl

theorem starts_call (child : Nat → Action Value) (place' : Nat) :
    (call child place').starts place m = if place' = place then [m] else [] := by
  unfold starts call
  by_cases h : place' = place <;> simp [h]

theorem starts_bind_of_ok {a : α} (h : x.run m = some (.ok a, m₁)) :
    (x >>= f).starts place m = x.starts place m ++ (f a).starts place m₁ := by
  unfold starts
  rw [calls_bind_of_ok h, List.filter_append, List.map_append]

/-- What ends in no value is all there is. -/
theorem starts_bind_of_not_ok (h : ¬ ∃ a m₁, x.run m = some (.ok a, m₁)) :
    (x >>= f).starts place m = x.starts place m := by
  have hcalls : (x >>= f).calls m = x.calls m := by
    show x.calls m ++ _ = _
    rcases hrun : x.run m with _ | ⟨_ | a, m₁⟩
    · exact List.append_nil _
    · exact List.append_nil _
    · exact absurd ⟨a, m₁, hrun⟩ h
  rw [starts, hcalls, starts]

/-- What makes no calls of a place adds none. -/
theorem starts_bind_of_forall (hf : ∀ a m₁, (f a).starts place m₁ = []) :
    (x >>= f).starts place m = x.starts place m := by
  by_cases h : ∃ a m₁, x.run m = some (.ok a, m₁)
  · obtain ⟨a, m₁, h⟩ := h
    rw [starts_bind_of_ok h, hf, List.append_nil]
  · exact starts_bind_of_not_ok h

/-- Actions in turn call on the places that they are for. -/
theorem starts_inTurn_of_not_mem {child : Nat → Action Value} :
    ∀ {places : List Nat} (last : Value) (m : Machine), place ∉ places →
      (inTurn last (places.map (call child))).starts place m = []
  | [], _, _, _ => rfl
  | place' :: places, last, m, h => by
    have hne := List.ne_of_not_mem_cons h
    have hrest := List.not_mem_of_not_mem_cons h
    refine (starts_bind_of_forall fun value m₁ =>
      starts_inTurn_of_not_mem value m₁ hrest).trans ?_
    rw [starts_call, if_neg (Ne.symm hne)]

/-- The place of one of them is called from where those before it end. -/
theorem starts_inTurn {child : Nat → Action Value} {after : List Nat} (hafter : place ∉ after) :
    ∀ {before : List Nat} {last v : Value} {m m₁ : Machine}, place ∉ before →
      (inTurn last (before.map (call child))).run m = some (.ok v, m₁) →
        (inTurn last ((before ++ place :: after).map (call child))).starts place m = [m₁]
  | [], last, v, m, m₁, _, h => by
    cases h
    refine (starts_bind_of_forall fun value m₁ =>
      starts_inTurn_of_not_mem value m₁ hafter).trans ?_
    rw [starts_call, if_pos rfl]
  | place' :: before, last, v, m, m₁, hbefore, h => by
    have hne := List.ne_of_not_mem_cons hbefore
    have hrest := List.not_mem_of_not_mem_cons hbefore
    obtain ⟨value, m₂, hfirst, hlater⟩ := Action.bind_eq_some_ok_iff.1 h
    refine (starts_bind_of_ok hfirst).trans ?_
    rw [starts_call, if_neg (Ne.symm hne), List.nil_append]
    exact starts_inTurn hafter hrest hlater

end Calling

namespace Node

open Calling

/-- The machines from which a node calls on the child at a place, in order. -/
def starts (laps : Nat) (n : Node) (place : Nat) (m : Machine) : List Machine :=
  (n.work laps (n.childEvaluation laps)).starts place (n.entered m)

/-- The machines from which a run evaluates the node at a position, in order. -/
def visits (laps : Nat) : Node → List Nat → Machine → List Machine
  | _, [], m => [m]
  | n, place :: position, m =>
    match n.children[place]? with
    | some child => (n.starts laps place m).flatMap (child.visits laps position)
    | none => []

/-- A run reaches a node if it visits it. -/
theorem reached_iff_visits (laps : Nat) : ∀ (position : List Nat) (n : Node) (m : Machine),
    n.Reached laps m position ↔ n.visits laps position m ≠ []
  | [], _, _ => by simp [Reached, visits]
  | place :: position, n, m => by
    cases hchild : n.children[place]? with
    | none => simp [Reached, visits, hchild]
    | some child =>
      simp only [Reached, visits, hchild, ne_eq, List.flatMap_eq_nil_iff, Classical.not_forall,
        Option.some.injEq, exists_eq_left', reached_iff_visits laps position child]
      constructor
      · rintro ⟨c, hcall, rfl, h⟩
        exact ⟨c.start, mem_starts.2 hcall, h⟩
      · rintro ⟨s, hs, h⟩
        exact ⟨_, mem_starts.1 hs, rfl, h⟩

/-- The machine that the first node of a block starts from. -/
def inside (nodes : List Node) (m : Machine) : Machine :=
  { (block nodes).entered m with
    journal := ((block nodes).entered m).journal.note (.blockEntered nodes.length) }.opened

theorem run_inTurn_take (laps : Nat) {nodes : List Node} {k : Nat} (hk : k ≤ nodes.length)
    (last : Value) : (inTurn last ((List.range k).map
      (call ((block nodes).childEvaluation laps)))).run = evaluateAll laps last (nodes.take k) := by
  have hall := run_inTurn_evaluate laps (nodes.take k) (nodes.take k) 0 last rfl
  rw [List.length_take, Nat.min_eq_left hk, ← List.range_eq_range'] at hall
  rw [← hall]
  refine congrArg (fun xs => (inTurn last xs).run) (List.map_congr_left fun place hplace => ?_)
  have hchild : (block nodes).childEvaluation laps place =
      (block (nodes.take k)).childEvaluation laps place := by
    simp only [childEvaluation, children, List.getElem?_take_of_lt (List.mem_range.1 hplace)]
  unfold call
  rw [hchild]

/-- A block calls on a node of it once, from where the nodes before it end. -/
theorem starts_block {laps : Nat} {nodes : List Node} {place : Nat} (hplace : place < nodes.length)
    {m m₁ : Machine} {v : Value}
    (h : evaluateAll laps .unit (nodes.take place) (inside nodes m) = some (.ok v, m₁)) :
    (block nodes).starts laps place m = [m₁] := by
  have hplaces : List.range nodes.length =
      List.range place ++ place :: List.range' (place + 1) (nodes.length - (place + 1)) := by
    have hsplit : nodes.length = place + (nodes.length - (place + 1) + 1) := by omega
    have happend : List.range' 0 place ++ List.range' (0 + place) (nodes.length - (place + 1) + 1) =
        List.range' 0 (place + (nodes.length - (place + 1) + 1)) := List.range'_append_1
    rw [Nat.zero_add, ← hsplit, List.range'_succ] at happend
    rw [List.range_eq_range', List.range_eq_range', happend]
  have hbefore : place ∉ List.range place := List.not_mem_range_self
  have hafter : place ∉ List.range' (place + 1) (nodes.length - (place + 1)) := fun h => by
    have := (List.mem_range'_1.1 h).1
    omega
  have hstarts : (block nodes).starts laps place m = (inTurn .unit ((List.range nodes.length).map
      (call ((block nodes).childEvaluation laps)))).starts place (inside nodes m) := rfl
  rw [hstarts, hplaces]
  refine starts_inTurn hafter hbefore (v := v) ?_
  rw [run_inTurn_take laps hplace.le]
  exact h

/-- A block ends as its nodes do in turn. -/
theorem evaluate_block_of_ok {laps : Nat} {nodes : List Node} {m m₁ : Machine} {v : Value}
    (h : evaluateAll laps .unit nodes (inside nodes m) = some (.ok v, m₁)) :
    (block nodes).evaluate laps m =
      some (.ok v, { m₁.closed with journal := m₁.closed.journal.note (.nodeLeft .block v) }) := by
  have hall := run_inTurn_take laps (Nat.le_refl nodes.length) .unit
  rw [List.take_length] at hall
  have hwork : ((block nodes).work laps ((block nodes).childEvaluation laps)).run
      ((block nodes).entered m) = some (.ok v, m₁.closed) := by
    refine (Action.bind_ok rfl).trans (Action.inScope_eq_some_iff.2 ⟨m₁, ?_, rfl⟩)
    rw [hall]
    exact h
  exact evaluate_eq_some_iff.2 (.inr ⟨v, m₁.closed, hwork, rfl, rfl⟩)

end Node

end TreeScript
