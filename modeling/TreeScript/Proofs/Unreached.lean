import Mathlib
import TreeScript.Proofs.Calls

/-!
# Nodes that are not reached

A position in a tree is a path of places among the children. `Node.Reached` says that a
run evaluates the node at a position: each step of the path is one of the calls that the
node before it makes.

A node that is not reached may be any other node (`Node.evaluate_replace`), unless it
belongs to the target of an assignment, which is looked at and not evaluated. A node that
is reached may not: with an endless loop in its position the run is cut off
(`Node.evaluate_replace_forever`). Both come from `Calling.Follows`, which compares two
ways to evaluate the children of one node.
-/

namespace TreeScript

namespace Node

/-! ## Positions -/

/-- Puts another child in a place, if there is such a place. -/
def setChild : Node → Nat → Node → Node
  | .print _, 0, child => .print child
  | .binary op _ right, 0, child => .binary op child right
  | .binary op left _, 1, child => .binary op left child
  | .ifThen _ body, 0, child => .ifThen child body
  | .ifThen test _, 1, child => .ifThen test child
  | .ifElse _ body otherwise, 0, child => .ifElse child body otherwise
  | .ifElse test _ otherwise, 1, child => .ifElse test child otherwise
  | .ifElse test body _, 2, child => .ifElse test body child
  | .whileLoop _ body, 0, child => .whileLoop child body
  | .whileLoop test _, 1, child => .whileLoop test child
  | .block nodes, place, child => .block (nodes.set place child)
  | .assign _ value, 0, child => .assign child value
  | .assign target _, 1, child => .assign target child
  | .inspect _, 0, child => .inspect child
  | n, _, _ => n

/-- Puts another node in a position, if there is such a position. -/
def replace : Node → List Nat → Node → Node
  | _, [], other => other
  | n, place :: position, other =>
    match n.children[place]? with
    | some child => n.setChild place (child.replace position other)
    | none => n

/-- A position in a tree that is neither the target of an assignment nor inside of one. -/
def OffTarget : Node → List Nat → Prop
  | _, [] => True
  | n, place :: position => ¬(n.kind = .assign ∧ place = 0) ∧
    ∃ child, n.children[place]? = some child ∧ child.OffTarget position

/-- A run evaluates the node at a position. -/
def Reached (laps : Nat) : Node → Machine → List Nat → Prop
  | _, _, [] => True
  | n, m, place :: position => ∃ child, n.children[place]? = some child ∧
    ∃ c ∈ n.calls laps m, c.place = place ∧ child.Reached laps c.start position

theorem children_setChild (n : Node) (place : Nat) (child : Node) :
    (n.setChild place child).children = n.children.set place child := by
  cases n with
  | block nodes => rfl
  | literal | var | identifier => rfl
  | print | inspect =>
    match place with
    | 0 | _ + 1 => rfl
  | binary | ifThen | whileLoop | assign =>
    match place with
    | 0 | 1 | _ + 2 => rfl
  | ifElse =>
    match place with
    | 0 | 1 | 2 | _ + 3 => rfl

theorem kind_setChild (n : Node) (place : Nat) (child : Node) :
    (n.setChild place child).kind = n.kind := by
  unfold setChild
  split <;> rfl

/-- The work of a node is a matter of how its children evaluate, but for a target. -/
theorem work_setChild {n : Node} {place : Nat} (h : ¬(n.kind = .assign ∧ place = 0))
    (laps : Nat) (evaluation : Nat → Action Value) (child : Node) :
    (n.setChild place child).work laps evaluation = n.work laps evaluation := by
  unfold setChild
  split
  case h_11 nodes place child => simp only [work, List.length_set]
  case h_12 target value child => exact absurd ⟨rfl, rfl⟩ h
  all_goals rfl

theorem childEvaluation_setChild {n : Node} {place : Nat} (h : place < n.children.length)
    (laps : Nat) (child : Node) (other : Nat) :
    (n.setChild place child).childEvaluation laps other =
      if other = place then child.evaluate laps else n.childEvaluation laps other := by
  unfold childEvaluation
  rw [children_setChild, List.getElem?_set]
  by_cases hother : other = place
  · subst hother
    simp [h]
  · simp [hother, Ne.symm hother]

end Node

/-! ## A change of the children's evaluation -/

namespace Calling

variable {α β : Type} {child child' : Nat → Action Value}

/-- Where calls only change in being cut off, the second action does as the first if no
call has changed, and is cut off if a call is. -/
def Follows (child child' : Nat → Action Value) (x y : Calling α) : Prop :=
  ∀ m, (∀ c ∈ x.calls m,
      child' c.place c.start = child c.place c.start ∨ child' c.place c.start = none) →
    ((∀ c ∈ x.calls m, child' c.place c.start = child c.place c.start) → y.run m = x.run m) ∧
      ((∃ c ∈ x.calls m, child' c.place c.start = none) → y.run m = none)

theorem follows_silent (x : Action α) : Follows child child' (silent x) (silent x) :=
  fun _ _ => ⟨fun _ => rfl, fun ⟨_, hc, _⟩ => absurd hc List.not_mem_nil⟩

theorem follows_call (place : Nat) :
    Follows child child' (call child place) (call child' place) := by
  intro m _
  refine ⟨fun h => h ⟨place, m⟩ (List.mem_singleton_self _), ?_⟩
  rintro ⟨c, hc, hnone⟩
  obtain rfl := List.mem_singleton.1 hc
  exact hnone

theorem Follows.bind {x y : Calling α} {f g : α → Calling β} (hx : Follows child child' x y)
    (hf : ∀ a, Follows child child' (f a) (g a)) :
    Follows child child' (x >>= f) (y >>= g) := by
  intro m hcalls
  obtain ⟨hsame, hnone⟩ := hx m fun c hc => hcalls c (calls_subset_bind x f m hc)
  -- if no call of the first part is cut off, that part runs as before
  by_cases hcut : ∃ c ∈ x.calls m, child' c.place c.start = none
  · have hy : (y >>= g).run m = none := Action.bind_none (hnone hcut)
    refine ⟨fun h => ?_, fun _ => hy⟩
    have hx' := hsame fun c hc => h c (calls_subset_bind x f m hc)
    rw [hy]
    exact (Action.bind_none (hx'.symm.trans (hnone hcut))).symm
  have hy : y.run m = x.run m := hsame fun c hc =>
    (hcalls c (calls_subset_bind x f m hc)).resolve_right fun h => hcut ⟨c, hc, h⟩
  cases hr : x.run m with
  | none =>
    have hbind : (y >>= g).run m = none := Action.bind_none (hy.trans hr)
    exact ⟨fun _ => hbind.trans (Action.bind_none hr).symm, fun _ => hbind⟩
  | some p =>
    obtain ⟨r, m₁⟩ := p
    cases r with
    | error e =>
      have hlist : (x >>= f).calls m = x.calls m := by
        show x.calls m ++ _ = _
        rw [hr, List.append_nil]
      rw [hlist]
      exact ⟨fun _ => (Action.bind_error (hy.trans hr)).trans (Action.bind_error hr).symm,
        fun h => absurd h hcut⟩
    | ok a =>
      have hlist := calls_bind_of_ok (f := f) hr
      rw [hlist] at hcalls ⊢
      obtain ⟨hsame', hnone'⟩ := hf a m₁ fun c hc => hcalls c (List.mem_append_right _ hc)
      have hrun : (x >>= f).run m = (f a).run m₁ := Action.bind_ok hr
      have hrun' : (y >>= g).run m = (g a).run m₁ := Action.bind_ok (hy.trans hr)
      refine ⟨fun h => ?_, ?_⟩
      · rw [hrun, hrun', hsame' fun c hc => h c (List.mem_append_right _ hc)]
      · rintro ⟨c, hc, h⟩
        rw [hrun']
        rcases List.mem_append.1 hc with hc | hc
        · exact absurd ⟨c, hc, h⟩ hcut
        · exact hnone' ⟨c, hc, h⟩

theorem Follows.inScope {x y : Calling α} (h : Follows child child' x y) :
    Follows child child' (inScope x) (inScope y) := by
  intro m hcalls
  obtain ⟨hsame, hnone⟩ := h m.opened hcalls
  simp only [run_inScope, Action.inScope_eq_map]
  refine ⟨fun h => ?_, fun h => ?_⟩
  · rw [hsame h]
  · rw [hnone h, Option.map_none]

theorem congruence_follows (child child' : Nat → Action Value) :
    Congruence (fun _ => True) (Follows child child') where
  pure _ := follows_silent _
  bind := Follows.bind
  inScope := Follows.inScope
  note _ _ := follows_silent _
  fail _ _ := follows_silent _
  cutOff := follows_silent _
  declare _ := follows_silent _
  print _ _ := follows_silent _
  get _ _ := follows_silent _
  assign _ _ _ := follows_silent _

end Calling

/-- A loop whose condition always holds and whose body never fails does not end. -/
theorem Action.repeatWhile_eq_none {condition : Action Bool} {body : Action Unit}
    (hc : ∀ m, ∃ m', condition m = some (.ok true, m'))
    (hb : ∀ m, ∃ m', body m = some (.ok (), m')) :
    ∀ laps count m, repeatWhile condition body laps count m = none
  | 0, _, _ => rfl
  | laps + 1, count, m => by
    obtain ⟨m₁, h₁⟩ := hc m
    obtain ⟨m₂, h₂⟩ := hb m₁
    rw [repeatWhile_succ, bind_ok h₁, if_pos rfl, bind_ok h₂]
    exact repeatWhile_eq_none hc hb laps (count + 1) m₂

namespace Node

open Calling

/-- The evaluation of a node with another child: as before if no call of that child has
changed, and cut off if such a call is. -/
theorem evaluate_setChild {n child other : Node} {place : Nat}
    (hchild : n.children[place]? = some child) (htarget : ¬(n.kind = .assign ∧ place = 0))
    {laps : Nat} {m : Machine} (h : ∀ c ∈ n.calls laps m, c.place = place →
      other.evaluate laps c.start = child.evaluate laps c.start ∨
        other.evaluate laps c.start = none) :
    ((∀ c ∈ n.calls laps m, c.place = place →
        other.evaluate laps c.start = child.evaluate laps c.start) →
      (n.setChild place other).evaluate laps m = n.evaluate laps m) ∧
    ((∃ c ∈ n.calls laps m, c.place = place ∧ other.evaluate laps c.start = none) →
      (n.setChild place other).evaluate laps m = none) := by
  obtain ⟨hlt, -⟩ := List.getElem?_eq_some_iff.1 hchild
  have hset := childEvaluation_setChild hlt laps other
  have hold : n.childEvaluation laps place = child.evaluate laps := by
    simp only [childEvaluation, hchild]
  -- only the calls in this place can change
  have hcase : ∀ {R : Action Value → Action Value → Prop}, (∀ x, R x x) → ∀ c : Call,
      (c.place = place → R (other.evaluate laps) (child.evaluate laps)) →
        R ((n.setChild place other).childEvaluation laps c.place)
          (n.childEvaluation laps c.place) := by
    intro R hrefl c hc
    rw [hset]
    split
    · rename_i hplace
      rw [hplace, hold]
      exact hc hplace
    · exact hrefl _
  obtain ⟨hsame, hnone⟩ := (congruence_follows (n.childEvaluation laps)
    ((n.setChild place other).childEvaluation laps)).work laps n (fun _ _ => trivial)
      follows_call (n.entered m) fun c hc =>
        hcase (R := fun x y => x c.start = y c.start ∨ x c.start = none) (fun _ => .inl rfl) c
          (h c hc)
  have hentered : (n.setChild place other).entered m = n.entered m := by
    rw [entered, kind_setChild]
    rfl
  rw [evaluate_eq_bind, evaluate_eq_bind, hentered, kind_setChild, work_setChild htarget]
  refine ⟨fun h => ?_, ?_⟩
  · have hwork := hsame fun c hc =>
      hcase (R := fun x y => x c.start = y c.start) (fun _ => rfl) c (h c hc)
    show Action.bind _ _ _ = Action.bind _ _ _
    unfold Action.bind
    rw [hwork]
  · rintro ⟨c, hc, hplace, hcut⟩
    refine Action.bind_none (hnone ⟨c, hc, ?_⟩)
    rw [hset, if_pos hplace]
    exact hcut

/-- A loop that never ends. -/
def forever : Node :=
  .whileLoop (.literal (.boolean true)) (.literal .unit)

theorem evaluate_forever (laps : Nat) (m : Machine) : forever.evaluate laps m = none := by
  have hloop : ∀ m, Action.repeatWhile
      (Action.condition .loop (evaluate laps (.literal (.boolean true))))
      (Action.inScope do let _ ← evaluate laps (.literal .unit)) laps 0 m = none :=
    Action.repeatWhile_eq_none (fun _ => ⟨_, rfl⟩) (fun _ => ⟨_, rfl⟩) laps 0
  rw [forever, evaluate, Action.visiting]
  exact (Action.bind_ok rfl).trans (Action.bind_none (Action.bind_none (hloop _)))

/-- What becomes of a run if the node at a position is another one. -/
theorem evaluate_replace_cases (laps : Nat) : ∀ (position : List Nat) {n : Node} (m : Machine),
    n.OffTarget position →
      (¬n.Reached laps m position → ∀ other,
        (n.replace position other).evaluate laps m = n.evaluate laps m) ∧
      (n.Reached laps m position → (n.replace position forever).evaluate laps m = none)
  | [], n, m, _ => ⟨fun h => absurd trivial h, fun _ => evaluate_forever laps m⟩
  | place :: position, n, m, ⟨htarget, child, hchild, hoff⟩ => by
    have ih := fun m => evaluate_replace_cases laps position m hoff
    have hreplace : ∀ other, n.replace (place :: position) other =
        n.setChild place (child.replace position other) := by
      intro other
      rw [replace, hchild]
    refine ⟨fun hun other => ?_, ?_⟩
    · have hcall : ∀ c ∈ n.calls laps m, c.place = place →
          (child.replace position other).evaluate laps c.start = child.evaluate laps c.start :=
        fun c hc hplace => (ih c.start).1 (fun h => hun ⟨child, hchild, c, hc, hplace, h⟩) other
      rw [hreplace]
      exact (evaluate_setChild hchild htarget fun c hc hplace =>
        .inl (hcall c hc hplace)).1 hcall
    · rintro ⟨child', hchild', c, hc, hplace, hreached⟩
      obtain rfl : child = child' := Option.some.inj (hchild.symm.trans hchild')
      rw [hreplace]
      refine (evaluate_setChild hchild htarget fun c _ _ => ?_).2
        ⟨c, hc, hplace, (ih c.start).2 hreached⟩
      by_cases h : child.Reached laps c.start position
      · exact .inr ((ih c.start).2 h)
      · exact .inl ((ih c.start).1 h forever)

/-- A run that does not reach a node is the same with any other node in its position. -/
theorem evaluate_replace {n : Node} {laps : Nat} {m m' : Machine} {r : Except RuntimeError Value}
    (h : n.evaluate laps m = some (r, m')) {position : List Nat} (hoff : n.OffTarget position)
    (hun : ¬n.Reached laps m position) (other : Node) :
    (n.replace position other).evaluate laps m = some (r, m') :=
  ((evaluate_replace_cases laps position m hoff).1 hun other).trans h

/-- A run that reaches a node is cut off with an endless loop in its position. -/
theorem evaluate_replace_forever {n : Node} {laps : Nat} {m : Machine} {position : List Nat}
    (hoff : n.OffTarget position) (h : n.Reached laps m position) :
    (n.replace position forever).evaluate laps m = none :=
  (evaluate_replace_cases laps position m hoff).2 h

/-- The right operand of a connective that is settled may loop forever, in a block that
goes on and then fails. -/
theorem evaluate_replace_settled :
    let n : Node := .block [.binary (.connective .and) (.literal (.boolean false)) (.var "x"),
      .print (.literal (.string "a")), .identifier "x"]
    let m : Machine := ⟨.initial, .unlimited, .off⟩
    let m' : Machine := ⟨.initial, ⟨"a\n".toUTF8, none, .refuses⟩, .off⟩
    n.evaluate 1 m = some (.error (.undefinedVariable "x"), m') ∧
      n.OffTarget [0, 1] ∧ ¬n.Reached 1 m [0, 1] ∧
        (n.replace [0, 1] forever).evaluate 1 m =
          some (.error (.undefinedVariable "x"), m') := by
  have h : (Node.block [.binary (.connective .and) (.literal (.boolean false)) (.var "x"),
      .print (.literal (.string "a")), .identifier "x"]).evaluate 1
      ⟨.initial, .unlimited, .off⟩ = some (.error (.undefinedVariable "x"),
        ⟨.initial, ⟨"a\n".toUTF8, none, .refuses⟩, .off⟩) := by cbv
  have hoff : (Node.block [.binary (.connective .and) (.literal (.boolean false)) (.var "x"),
      .print (.literal (.string "a")), .identifier "x"]).OffTarget [0, 1] := by
    simp [OffTarget, kind, children]
  have hun : ¬(Node.block [.binary (.connective .and) (.literal (.boolean false)) (.var "x"),
      .print (.literal (.string "a")), .identifier "x"]).Reached 1
      ⟨.initial, .unlimited, .off⟩ [0, 1] := by
    rintro ⟨child, hchild, c, -, -, child', -, c', hc', hplace, -⟩
    cases hchild
    -- the settled connective makes one call, of its left operand
    have hcalls : (Node.binary (.connective .and) (.literal (.boolean false)) (.var "x")).calls 1
        c.start = [⟨0, _⟩] := rfl
    rw [hcalls] at hc'
    obtain rfl := List.mem_singleton.1 hc'
    cases hplace
  exact ⟨h, hoff, hun, evaluate_replace h hoff hun forever⟩

end Node

end TreeScript
