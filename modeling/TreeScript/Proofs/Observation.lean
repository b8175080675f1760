import Mathlib.Data.Set.Defs
import TreeScript.Proofs.Lockstep
import TreeScript.Proofs.Slots

/-!
# What a tree sees of its scopes

A tree sees its scopes through lookups of its own names. `Scopes.Alike S k` relates
scopes that the names of `S` cannot tell apart: below `k` innermost frames that are
the same, every name of `S` has the same value or none, in whatever frame. Lookups
alone would not do, since a frame that is closed may uncover what they did not show.

`Node.evaluate_lockstep` runs a tree on such scopes in lockstep, and
`Node.evaluate_observes` draws the conclusion for scopes that agree on lookups.
-/

namespace TreeScript

namespace Scopes

variable {S : Set String} {k : Nat} {s t : Scopes}

/-- The `k` innermost frames are the same, and below them the names of `S` look the same. -/
inductive Alike (S : Set String) : Nat → Scopes → Scopes → Prop where
  | base {s t : Scopes} : (∀ x ∈ S, s.get? x = t.get? x) → Alike S 0 s t
  | frame {k : Nat} {s t : Scopes} (f : Frame) :
    Alike S k s t → Alike S (k + 1) ⟨f, s.frames⟩ ⟨f, t.frames⟩

namespace Alike

theorem get?_eq (h : Alike S k s t) {x : String} (hx : x ∈ S) : s.get? x = t.get? x := by
  induction h with
  | base h => exact h x hx
  | frame f _ ih => rw [get?_cons, get?_cons, ih]

theorem push (h : Alike S k s t) : Alike S (k + 1) s.push t.push :=
  .frame .empty h

theorem pop (h : Alike S (k + 1) s t) : Alike S k s.pop t.pop := by
  cases h with
  | frame f h => exact h

theorem define (h : Alike S k s t) (name : String) (value : Value) :
    Alike S k (s.define name value) (t.define name value) := by
  cases h with
  | base h =>
    refine .base fun x hx => ?_
    rw [get?_define, get?_define, h x hx]
  | frame f hbelow => exact .frame (f.insert name value) hbelow

/-- An assignment to a name of `S` fails in both scopes, or in neither and leaves them
alike. -/
theorem assign? (h : Alike S k s t) {name : String} (hname : name ∈ S) (value : Value) :
    Option.Rel (Alike S k) (s.assign? name value) (t.assign? name value) := by
  induction h with
  | @base s t h =>
    cases hs : s.assign? name value with
    | none =>
      have hnone := assign?_eq_none_iff.1 hs
      rw [h name hname] at hnone
      rw [assign?_eq_none_iff.2 hnone]
      exact .none
    | some s' =>
      cases ht : t.assign? name value with
      | none =>
        have hnone := assign?_eq_none_iff.1 ht
        rw [← h name hname, ← @assign?_eq_none_iff s name value, hs] at hnone
        cases hnone
      | some t' =>
        refine .some (.base fun x hx => ?_)
        rw [get?_of_assign? hs, get?_of_assign? ht, h x hx]
  | @frame k s t f hbelow ih =>
    rw [assign?_cons, assign?_cons]
    split
    · exact .some (.frame (f.insert name value) hbelow)
    · generalize s.assign? name value = a, t.assign? name value = b at ih
      cases ih with
      | none => exact .none
      | some h => exact .some (.frame f h)

end Alike

end Scopes

namespace Machine

/-- Machines with one sink, on scopes that the names of `S` cannot tell apart. -/
def Alike (S : Set String) (k : Nat) (m₁ m₂ : Machine) : Prop :=
  m₁.sink = m₂.sink ∧ m₁.scopes.Alike S k m₂.scopes

end Machine

namespace Action

variable {S : Set String} {k : Nat}

theorem compositional_alike (S : Set String) (k : Nat) :
    Compositional (Lockstep (Machine.Alike S k)) :=
  compositional_lockstep fun _ _ _ h => h

theorem Lockstep.inScope_alike {α : Type} {x y : Action α}
    (h : Lockstep (Machine.Alike S (k + 1)) x y) :
    Lockstep (Machine.Alike S k) (Action.inScope x) (Action.inScope y) :=
  h.inScope (fun _ _ hm => ⟨hm.1, hm.2.push⟩) fun _ _ hm => ⟨hm.1, hm.2.pop⟩

theorem lockstep_print (value : Value) :
    Lockstep (Machine.Alike S k) (print value) (print value) := by
  rintro ⟨s₁, sink, j₁⟩ ⟨s₂, _, j₂⟩ ⟨rfl, h⟩
  unfold print
  dsimp only
  split
  · exact .some ⟨rfl, rfl, h⟩
  · exact .some ⟨rfl, rfl, h⟩

theorem lockstep_declare (name : String) :
    Lockstep (Machine.Alike S k) (declare name) (declare name) :=
  fun _ _ h => .some ⟨rfl, h.1, h.2.define name .unit⟩

theorem lockstep_get {name : String} (hname : name ∈ S) :
    Lockstep (Machine.Alike S k) (get name) (get name) := by
  intro m₁ m₂ h
  have hof := (compositional_alike S k).ofOption (.undefinedVariable name) (m₁.scopes.get? name)
  have hrel := hof m₁ m₂ h
  unfold get
  rwa [← h.2.get?_eq hname]

theorem lockstep_assign {name : String} (hname : name ∈ S) (value : Value) :
    Lockstep (Machine.Alike S k) (assign name value) (assign name value) := by
  intro m₁ m₂ h
  have hrel := h.2.assign? hname value
  unfold assign
  generalize m₁.scopes.assign? name value = a, m₂.scopes.assign? name value = b at hrel
  cases hrel with
  | none => exact (compositional_alike S k).fail _ m₁ m₂ h
  | some hs => exact .some ⟨rfl, h.1, hs⟩

theorem lockstep_assignTo {target : Node} (h : ∀ x ∈ target.names, x ∈ S) (value : Value) :
    Lockstep (Machine.Alike S k) (assignTo target value) (assignTo target value) := by
  have hP := compositional_alike S k
  unfold assignTo
  split
  · exact hP.bind (lockstep_assign (h _ (List.mem_singleton_self _)) value) fun _ =>
      hP.bind (hP.note _ rfl) fun _ => hP.pure _
  · exact hP.fail _

end Action

namespace Node

open TreeScript.Action

variable {S : Set String}

/-- A tree runs in lockstep on scopes that its names cannot tell apart. -/
theorem evaluate_lockstep (laps : Nat) (n : Node) :
    ∀ k, (∀ x ∈ n.names, x ∈ S) →
      Lockstep (Machine.Alike S k) (n.evaluate laps) (n.evaluate laps) := by
  induction n with
  | literal value =>
    intro k _
    have hP := compositional_alike S k
    simp only [evaluate]
    exact hP.visiting _ (hP.pure value)
  | print inner ih =>
    intro k hS
    have hP := compositional_alike S k
    simp only [evaluate]
    exact hP.visiting _ (hP.bind (ih k hS) fun value => hP.bind (lockstep_print value) fun _ =>
      hP.bind (hP.note _ rfl) fun _ => hP.pure _)
  | binary op left right ihl ihr =>
    intro k hS
    have hP := compositional_alike S k
    simp only [names, List.forall_mem_append] at hS
    simp only [evaluate]
    exact hP.visiting _ (hP.binary op (ihl k hS.1) (ihr k hS.2))
  | ifThen test body iht ihb =>
    intro k hS
    have hP := compositional_alike S k
    simp only [names, List.forall_mem_append] at hS
    simp only [evaluate]
    refine hP.visiting _ (hP.bind (hP.condition _ (iht k hS.1)) fun holds => ?_)
    cases holds with
    | false => exact hP.pure _
    | true => exact hP.bind (hP.note _ rfl) fun _ => (ihb (k + 1) hS.2).inScope_alike
  | ifElse test body otherwise iht ihb iho =>
    intro k hS
    have hP := compositional_alike S k
    simp only [names, List.forall_mem_append] at hS
    simp only [evaluate]
    refine hP.visiting _ (hP.bind (hP.condition _ (iht k hS.1.1)) fun holds => ?_)
    cases holds with
    | false => exact hP.bind (hP.note _ rfl) fun _ => (iho (k + 1) hS.2).inScope_alike
    | true => exact hP.bind (hP.note _ rfl) fun _ => (ihb (k + 1) hS.1.2).inScope_alike
  | whileLoop test body iht ihb =>
    intro k hS
    have hP := compositional_alike S k
    simp only [names, List.forall_mem_append] at hS
    simp only [evaluate]
    have hlap := ((compositional_alike S (k + 1)).bind (ihb (k + 1) hS.2) fun _ =>
      (compositional_alike S (k + 1)).pure ()).inScope_alike
    exact hP.visiting _ (hP.bind (hP.repeatWhile (hP.condition _ (iht k hS.1)) hlap _ _) fun _ =>
      hP.bind (hP.note _ rfl) fun _ => hP.pure _)
  | block nodes ih =>
    intro k hS
    have hP := compositional_alike S k
    simp only [names, namesOfAll_eq_flatMap] at hS
    simp only [evaluate]
    have hall := (compositional_alike S (k + 1)).evaluateAll nodes .unit fun node hn =>
      ih node hn (k + 1) fun x hx => hS x (List.mem_flatMap_of_mem hn hx)
    exact hP.visiting _ (hP.bind (hP.note _ rfl) fun _ => hall.inScope_alike)
  | var name =>
    intro k _
    have hP := compositional_alike S k
    simp only [evaluate]
    exact hP.visiting _ (hP.bind (lockstep_declare name) fun _ =>
      hP.bind (hP.note _ rfl) fun _ => hP.pure _)
  | identifier name =>
    intro k hS
    simp only [evaluate]
    exact (compositional_alike S k).visiting _ (lockstep_get (hS _ (List.mem_singleton_self _)))
  | assign target value _ ihv =>
    intro k hS
    have hP := compositional_alike S k
    simp only [names, List.forall_mem_append] at hS
    simp only [evaluate]
    exact hP.visiting _ (hP.bind (ihv k hS.2) fun v => lockstep_assignTo hS.1 v)
  | inspect inner ih =>
    intro k hS
    simp only [evaluate]
    exact (compositional_alike S k).visiting _ (ih k hS)

/-- A run on scopes that agree on the names of a tree has a counterpart. -/
theorem Returns.exists_alike {n : Node} {m₁ m₂ m₁' : Machine} {r : Except RuntimeError Value}
    (h : n.Returns m₁ r m₁') (hS : ∀ x ∈ n.names, x ∈ S) (hm : m₁.Alike S 0 m₂) :
    ∃ m₂', n.Returns m₂ r m₂' ∧ m₁'.Alike S 0 m₂' := by
  obtain ⟨laps, h⟩ := h
  obtain ⟨m₂', h₂, hm'⟩ := (evaluate_lockstep laps n 0 hS).exists_some hm h
  exact ⟨m₂', ⟨laps, h₂⟩, hm'⟩

/-- On two stacks of scopes that agree on the lookups of its names, a tree returns on
both or on neither, with the same result and output, and they agree again. -/
theorem evaluate_observes {n : Node} {S : Set String} (hS : ∀ x ∈ n.names, x ∈ S)
    {m₁ m₂ : Machine} (hsink : m₁.sink = m₂.sink)
    (hget : ∀ x ∈ S, m₁.scopes.get? x = m₂.scopes.get? x) :
    ((∃ r m', n.Returns m₁ r m') ↔ ∃ r m', n.Returns m₂ r m') ∧
      ∀ r₁ r₂ m₁' m₂', n.Returns m₁ r₁ m₁' → n.Returns m₂ r₂ m₂' →
        r₁ = r₂ ∧ m₁'.sink = m₂'.sink ∧
          ∀ x ∈ S, m₁'.scopes.get? x = m₂'.scopes.get? x := by
  have hm : m₁.Alike S 0 m₂ := ⟨hsink, .base hget⟩
  have hm' : m₂.Alike S 0 m₁ := ⟨hsink.symm, .base fun x hx => (hget x hx).symm⟩
  refine ⟨⟨?_, ?_⟩, ?_⟩
  · rintro ⟨r, m, h⟩
    obtain ⟨m₂', h₂, -⟩ := h.exists_alike hS hm
    exact ⟨r, m₂', h₂⟩
  · rintro ⟨r, m, h⟩
    obtain ⟨m₁', h₁, -⟩ := h.exists_alike hS hm'
    exact ⟨r, m₁', h₁⟩
  · intro r₁ r₂ m₁' m₂' h₁ h₂
    obtain ⟨m, h, hout⟩ := h₁.exists_alike hS hm
    obtain ⟨rfl, rfl⟩ := h.unique h₂
    exact ⟨rfl, hout.1, fun x hx => hout.2.get?_eq hx⟩

/-- A loop that ends by its own assignment, on one frame and on three: the name stands
in the globals of the one, and under an empty frame and above its double in the other. -/
theorem evaluate_observes_shadowed :
    let n : Node := .whileLoop (.identifier "x") (.block [.var "y",
      .print (.assign (.identifier "x") (.binary .equal (.identifier "x") (.identifier "y")))])
    let m₁ : Machine :=
      ⟨⟨(Frame.empty.insert "z" .unit).insert "x" (.boolean true), []⟩, .unlimited, .off⟩
    let m₂ : Machine :=
      ⟨⟨.empty, [Frame.empty.insert "x" (.boolean true), Frame.empty.insert "x" .unit]⟩,
        .unlimited, .off⟩
    let S : Set String := fun x => x ∈ ["x", "y"]
    (∀ x ∈ n.names, x ∈ S) ∧ m₁.sink = m₂.sink ∧
      (∀ x ∈ S, m₁.scopes.get? x = m₂.scopes.get? x) ∧
      ((∃ r m', n.Returns m₁ r m') ↔ ∃ r m', n.Returns m₂ r m') ∧
        ∀ r₁ r₂ m₁' m₂', n.Returns m₁ r₁ m₁' → n.Returns m₂ r₂ m₂' →
          r₁ = r₂ ∧ m₁'.sink = m₂'.sink ∧
            ∀ x ∈ S, m₁'.scopes.get? x = m₂'.scopes.get? x := by
  intro n m₁ m₂ S
  have hS : ∀ x ∈ n.names, x ∈ ["x", "y"] := by decide
  have hget : ∀ x ∈ ["x", "y"], m₁.scopes.get? x = m₂.scopes.get? x := by
    simp [m₁, m₂, Scopes.get?, Scopes.frames, List.findSome?_cons]
  exact ⟨hS, rfl, hget, evaluate_observes hS rfl hget⟩

end Node

end TreeScript
