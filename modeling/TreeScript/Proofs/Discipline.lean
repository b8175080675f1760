import Mathlib
import TreeScript.Proofs.Slots
import TreeScript.Proofs.Trails

/-!
# Scope discipline

Evaluation leaves the stack of scopes as it found it, but for what the tree says.
`Scopes.Within declared assigned` relates the scopes before and after: no frame
comes or goes, no name is dropped, a new name is one of `declared` and stands in the
innermost frame, and a slot changes only for a name of `assigned` that no frame
further in binds, or for a declaration.

`Node.evaluate_retraces` finds `Within`, and records in good order, for every run of
a tree. `Node.Returns.discipline` reads off what this says of one run, also of the
scopes that are closed on the way.
-/

namespace TreeScript

namespace Scopes

/-- What may happen to the scopes where names are declared in the innermost scope and
names are assigned. -/
structure Within (declared assigned : List String) (s t : Scopes) : Prop where
  depth : t.depth = s.depth
  /-- A frame that is not the innermost binds the names that it did. -/
  enclosing : ∀ i x, 0 < i → ((t.slot i x).isSome ↔ (s.slot i x).isSome)
  kept : ∀ x, (s.slot 0 x).isSome → (t.slot 0 x).isSome
  new : ∀ x, (t.slot 0 x).isSome → (s.slot 0 x).isSome ∨ x ∈ declared
  /-- A slot that changes is the first of a name that is assigned, or is declared. -/
  changed : ∀ i x, t.slot i x ≠ s.slot i x →
    (x ∈ assigned ∧ ∀ j < i, s.slot j x = none) ∨ (i = 0 ∧ x ∈ declared)

namespace Within

variable {D D' A : List String} {s t u : Scopes}

theorem refl (s : Scopes) : Within D A s s :=
  ⟨rfl, fun _ _ _ => Iff.rfl, fun _ h => h, fun _ h => Or.inl h, fun _ _ h => absurd rfl h⟩

/-- A slot that is full stays full. -/
theorem isSome (h : Within D A s t) {i : Nat} {x : String} (hx : (s.slot i x).isSome) :
    (t.slot i x).isSome := by
  cases i with
  | zero => exact h.kept x hx
  | succ i => exact (h.enclosing (i + 1) x (by omega)).2 hx

theorem trans (h : Within D A s t) (h' : Within D A t u) : Within D A s u where
  depth := h'.depth.trans h.depth
  enclosing i x hi := (h'.enclosing i x hi).trans (h.enclosing i x hi)
  kept x hx := h'.kept x (h.kept x hx)
  new x hx := by
    rcases h'.new x hx with hx | hx
    · exact h.new x hx
    · exact Or.inr hx
  changed i x hne := by
    by_cases hst : t.slot i x = s.slot i x
    · rw [← hst] at hne
      refine (h'.changed i x hne).imp_left fun ⟨hA, hfirst⟩ => ⟨hA, fun j hj => ?_⟩
      -- a name that is bound further in at the start would still be bound there
      cases hs : s.slot j x with
      | none => rfl
      | some v =>
        have := h.isSome (Option.isSome_of_eq_some hs)
        rw [hfirst j hj] at this
        cases this
    · exact h.changed i x hst

theorem define (s : Scopes) {name : String} (value : Value) (hname : name ∈ D) :
    Within D A s (s.define name value) where
  depth := rfl
  enclosing i x hi := by rw [slot_define, if_neg (by omega)]
  kept x hx := by
    rw [slot_define]
    split
    · rfl
    · exact hx
  new x hx := by
    rw [slot_define] at hx
    split at hx
    · rename_i h
      exact Or.inr (h.2 ▸ hname)
    · exact Or.inl hx
  changed i x hne := by
    rw [slot_define] at hne
    split at hne
    · rename_i h
      exact Or.inr ⟨h.1, h.2 ▸ hname⟩
    · exact absurd rfl hne

theorem assign {name : String} {value : Value} (h : s.assign? name value = some t)
    (hname : name ∈ A) : Within D A s t := by
  obtain ⟨i, hfull, hfirst, hdepth, hslot⟩ := exists_slot_of_assign? h
  have hiff : ∀ j x, (t.slot j x).isSome ↔ (s.slot j x).isSome := by
    intro j x
    rw [hslot]
    split
    · rename_i h
      rw [h.1, h.2]
      exact ⟨fun _ => hfull, fun _ => rfl⟩
    · exact Iff.rfl
  refine ⟨hdepth, fun j x _ => hiff j x, fun x => (hiff 0 x).2,
    fun x hx => Or.inl ((hiff 0 x).1 hx), fun j x hne => ?_⟩
  rw [hslot] at hne
  split at hne
  · rename_i h
    exact Or.inl ⟨h.2 ▸ hname, by rw [h.1, h.2]; exact hfirst⟩
  · exact absurd rfl hne

/-- What happens in a scope that is opened and closed declares nothing outside. -/
theorem scope (h : Within D' A s.push t) : Within D A s t.pop := by
  have hdepth : t.depth = s.depth + 1 := h.depth
  have htwo : 2 ≤ t.depth := by have := s.one_le_depth; omega
  have hiff : ∀ i x, (t.pop.slot i x).isSome ↔ (s.slot i x).isSome := by
    intro i x
    rw [slot_pop htwo]
    exact h.enclosing (i + 1) x (by omega)
  refine ⟨?_, fun i x _ => hiff i x, fun x => (hiff 0 x).2,
    fun x hx => Or.inl ((hiff 0 x).1 hx), fun i x hne => ?_⟩
  · have := depth_pop htwo
    omega
  · rw [slot_pop htwo] at hne
    rcases h.changed (i + 1) x hne with ⟨hA, hfirst⟩ | ⟨h0, -⟩
    · exact Or.inl ⟨hA, fun j hj => hfirst (j + 1) (by omega)⟩
    · omega

end Within

/-- A run within the given names that opens and closes scopes in good order. -/
def Orderly (declared assigned : List String) (s : Scopes) (rs : List Record) (t : Scopes) :
    Prop :=
  Within declared assigned s t ∧ Nested s.depth rs

theorem trail_orderly (D A : List String) : Trail (Orderly D A) where
  refl s := ⟨.refl s, .nil _⟩
  quiet s _ hr := ⟨.refl s, .quiet hr (.nil _)⟩
  trans := by
    rintro s t u rs rs' ⟨h, hn⟩ ⟨h', hn'⟩
    rw [h.depth] at hn'
    exact ⟨h.trans h', hn.append hn'⟩

theorem Orderly.scope {D D' A : List String} {s t : Scopes} {rs : List Record}
    (h : Orderly D' A s.push rs t) :
    Orderly D A s (.scopePushed s.push.depth :: (rs ++ [.scopePopped t.pop.depth])) t.pop := by
  obtain ⟨hw, hn⟩ := h
  have hout : Within D A s t.pop := hw.scope
  rw [hout.depth]
  exact ⟨hout, .scope hn (.nil _)⟩

end Scopes

namespace Action

open Scopes

theorem retraces_declare {D A : List String} {name : String} (hname : name ∈ D) :
    Retraces (Orderly D A) (declare name) (declare name) := by
  intro m r m' h
  cases h
  exact ⟨[], fun j => rfl, Within.define _ _ hname, .nil _⟩

theorem retraces_assign {D A : List String} {name : String} (value : Value) (hname : name ∈ A) :
    Retraces (Orderly D A) (assign name value) (assign name value) := by
  intro m r m' h
  unfold assign at h ⊢
  dsimp only at h ⊢
  cases ha : m.scopes.assign? name value with
  | none =>
    rw [ha] at h
    cases h
    exact ⟨[_], fun j => rfl, (trail_orderly D A).quiet _ _ rfl⟩
  | some t =>
    rw [ha] at h
    cases h
    exact ⟨[], fun j => rfl, Within.assign ha hname, .nil _⟩

theorem retraces_assignTo {D A : List String} {target : Node} (value : Value)
    (h : ∀ name ∈ target.targetName, name ∈ A) :
    Retraces (Orderly D A) (assignTo target value) (assignTo target value) := by
  have hP := compositional_retraces (trail_orderly D A)
  unfold assignTo
  split
  · exact hP.bind (retraces_assign value (h _ (List.mem_singleton_self _))) fun _ =>
      hP.bind (hP.note _ rfl) fun _ => hP.pure _
  · exact hP.fail _

end Action

namespace Node

open TreeScript.Action Scopes

/-- Evaluation declares and assigns the names that the tree says, and closes the
scopes that it opens. -/
theorem evaluate_retraces (laps : Nat) (n : Node) :
    ∀ {D A : List String}, n.declared ⊆ D → n.assigned ⊆ A →
      Retraces (Orderly D A) (n.evaluate laps) (n.evaluate laps) := by
  induction n with
  | literal value =>
    intro D A hD hA
    have hP := compositional_retraces (trail_orderly D A)
    simp only [evaluate]
    exact hP.visiting _ (hP.pure value)
  | print inner ih =>
    intro D A hD hA
    have hP := compositional_retraces (trail_orderly D A)
    simp only [evaluate]
    exact hP.visiting _ (hP.bind (ih hD hA) fun value =>
      hP.bind (retraces_print (trail_orderly D A) value) fun _ =>
        hP.bind (hP.note _ rfl) fun _ => hP.pure _)
  | binary op left right ihl ihr =>
    intro D A hD hA
    have hP := compositional_retraces (trail_orderly D A)
    simp only [declared, assigned, List.append_subset] at hD hA
    simp only [evaluate]
    exact hP.visiting _ (hP.binary op (ihl hD.1 hA.1) (ihr hD.2 hA.2))
  | ifThen test body iht ihb =>
    intro D A hD hA
    have hP := compositional_retraces (trail_orderly D A)
    simp only [assigned, List.append_subset] at hA
    simp only [evaluate]
    refine hP.visiting _ (hP.bind (hP.condition _ (iht hD hA.1)) fun holds => ?_)
    cases holds with
    | false => exact hP.pure _
    | true =>
      exact hP.bind (hP.note _ rfl) fun _ =>
        (ihb (List.Subset.refl _) hA.2).inScope fun _ _ _ => Orderly.scope
  | ifElse test body otherwise iht ihb iho =>
    intro D A hD hA
    have hP := compositional_retraces (trail_orderly D A)
    simp only [assigned, List.append_subset] at hA
    simp only [evaluate]
    refine hP.visiting _ (hP.bind (hP.condition _ (iht hD hA.1.1)) fun holds => ?_)
    cases holds with
    | false =>
      exact hP.bind (hP.note _ rfl) fun _ =>
        (iho (List.Subset.refl _) hA.2).inScope fun _ _ _ => Orderly.scope
    | true =>
      exact hP.bind (hP.note _ rfl) fun _ =>
        (ihb (List.Subset.refl _) hA.1.2).inScope fun _ _ _ => Orderly.scope
  | whileLoop test body iht ihb =>
    intro D A hD hA
    have hP := compositional_retraces (trail_orderly D A)
    simp only [assigned, List.append_subset] at hA
    simp only [evaluate]
    have hbody := (compositional_retraces (trail_orderly body.declared A)).bind
      (ihb (List.Subset.refl _) hA.2) fun _ => (compositional_retraces (trail_orderly _ A)).pure ()
    have hlap := hbody.inScope (T := Orderly D A) fun _ _ _ => Orderly.scope
    exact hP.visiting _ (hP.bind (hP.repeatWhile (hP.condition _ (iht hD hA.1)) hlap _ _) fun _ =>
      hP.bind (hP.note _ rfl) fun _ => hP.pure _)
  | block nodes ih =>
    intro D A hD hA
    have hP := compositional_retraces (trail_orderly D A)
    simp only [assigned, assignedInAll_eq_flatMap] at hA
    simp only [evaluate]
    have hall := (compositional_retraces (trail_orderly (nodes.flatMap declared) A)).evaluateAll
      nodes .unit fun node hn => ih node hn
        (fun x hx => List.mem_flatMap_of_mem hn hx) fun x hx => hA (List.mem_flatMap_of_mem hn hx)
    exact hP.visiting _ (hP.bind (hP.note _ rfl) fun _ =>
      hall.inScope fun _ _ _ => Orderly.scope)
  | var name =>
    intro D A hD hA
    have hP := compositional_retraces (trail_orderly D A)
    simp only [evaluate]
    exact hP.visiting _ (hP.bind (retraces_declare (hD (List.mem_singleton_self _))) fun _ =>
      hP.bind (hP.note _ rfl) fun _ => hP.pure _)
  | identifier name =>
    intro D A hD hA
    have hP := compositional_retraces (trail_orderly D A)
    simp only [evaluate]
    exact hP.visiting _ (retraces_get (trail_orderly D A) name)
  | assign target value _ ihv =>
    intro D A hD hA
    have hP := compositional_retraces (trail_orderly D A)
    simp only [assigned, List.append_subset] at hA
    simp only [evaluate]
    exact hP.visiting _ (hP.bind (ihv hD hA.2) fun v =>
      retraces_assignTo v fun name hn => hA.1.1 hn)
  | inspect inner ih =>
    intro D A hD hA
    have hP := compositional_retraces (trail_orderly D A)
    simp only [evaluate]
    exact hP.visiting _ (ih hD hA)

/-- However a node returns, with a value or an error, the scopes are those of before up
to its declarations and assignments. It makes the same records from any journal, and
each record of a scope closed tells of a stack of two frames or more that loses one. -/
theorem Returns.discipline {n : Node} {m m' : Machine} {r : Except RuntimeError Value}
    (h : n.Returns m r m') :
    Within n.declared n.assigned m.scopes m'.scopes ∧
      ∃ rs, (∀ j, n.Returns { m with journal := j } r { m' with journal := j.noteAll rs }) ∧
        ∀ before depth after, rs = before ++ .scopePopped depth :: after →
          2 ≤ depthAfter m.scopes.depth before ∧
            depthAfter m.scopes.depth before = depth + 1 := by
  obtain ⟨laps, h⟩ := h
  obtain ⟨rs, hrs, hwithin, hnested⟩ :=
    evaluate_retraces laps n (List.Subset.refl _) (List.Subset.refl _) _ _ _ h
  refine ⟨hwithin, rs, fun j => ⟨laps, hrs j⟩, fun before depth after hsplit => ?_⟩
  obtain ⟨hdepth, hle⟩ := hnested.depthAfter_popped hsplit
  have := m.scopes.one_le_depth
  exact ⟨by omega, hdepth⟩

/-- A declaration in an operand, then a block that declares, assigns outside of itself
and fails. -/
theorem Returns.discipline_failing_block :
    let m : Machine :=
      ⟨⟨Frame.empty.insert "x" .unit, [Frame.empty.insert "y" .unit]⟩, .unlimited, .off⟩
    let n : Node := .binary .equal (.var "z") (.block [.var "x",
      .assign (.identifier "y") (.literal (.string "a")), .identifier "q"])
    let m' : Machine :=
      ⟨⟨(Frame.empty.insert "x" .unit).insert "z" .unit, [Frame.empty.insert "y" (.string "a")]⟩,
        .unlimited, .off⟩
    n.Returns m (.error (.undefinedVariable "q")) m' ∧
      Within n.declared n.assigned m.scopes m'.scopes ∧
        ∃ rs, (∀ j, n.Returns { m with journal := j } (.error (.undefinedVariable "q"))
            { m' with journal := j.noteAll rs }) ∧
          ∀ before depth after, rs = before ++ .scopePopped depth :: after →
            2 ≤ depthAfter m.scopes.depth before ∧
              depthAfter m.scopes.depth before = depth + 1 := by
  have h : ∀ sink, (Node.binary .equal (.var "z") (.block [.var "x",
      .assign (.identifier "y") (.literal (.string "a")), .identifier "q"])).Returns
      ⟨⟨Frame.empty.insert "x" .unit, [Frame.empty.insert "y" .unit]⟩, sink, .off⟩
      (.error (.undefinedVariable "q"))
      ⟨⟨(Frame.empty.insert "x" .unit).insert "z" .unit, [Frame.empty.insert "y" (.string "a")]⟩,
        sink, .off⟩ := fun sink => ⟨0, by cbv⟩
  exact ⟨h _, Returns.discipline (h _)⟩

end Node

end TreeScript
