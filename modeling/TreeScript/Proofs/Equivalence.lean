import TreeScript.Proofs.Footprint
import TreeScript.Proofs.Lockstep
import TreeScript.Proofs.Slots

/-!
# Trees that do the same

`Action.Matches T T' x y` compares a run of `x` with a run of `y` on one sink and on scopes in
`T`: they end alike, and leave one sink and scopes in `T'`. Records play no part in it, so they
may be dropped on either side. Two trees are `Node.Equivalent` if their evaluations match on
the same scopes (`Node.equivalent_of_matches`).

The two sides may run one tree on different stacks. `Scopes.Interchangeable B` says what is
needed for this of the scopes in which the stacks differ: they agree on lookups, and stay in
`B` under definitions and assignments. Then every tree matches itself on stacks with the same
frames over scopes in `B` (`Interchangeable.evaluate`).
-/

namespace TreeScript

/-! ## Actions that match -/

/-- Machines with one sink, on scopes in a relation. -/
def Machine.On (T : Scopes → Scopes → Prop) (m₁ m₂ : Machine) : Prop :=
  m₁.sink = m₂.sink ∧ T m₁.scopes m₂.scopes

namespace Action

variable {α β : Type} {T T' T₁ T₁' : Scopes → Scopes → Prop}

/-- From scopes in `T` and with one sink, both runs are cut off, or both end in the same
result, on scopes in `T'` and with one sink. -/
def Matches (T T' : Scopes → Scopes → Prop) (x y : Action α) : Prop :=
  ∀ m₁ m₂, Machine.On T m₁ m₂ →
    Option.Rel (fun p q => p.1 = q.1 ∧ Machine.On T' p.2 q.2) (x m₁) (y m₂)

theorem compositional_matches (T : Scopes → Scopes → Prop) : Compositional (Matches T T) :=
  compositional_lockstep fun _ _ _ h => h

namespace Matches

variable {x y z : Action α} {f g : α → Action β}

theorem bind (hx : Matches T T₁ x y) (hsub : ∀ s t, T₁ s t → T' s t)
    (hf : ∀ a, Matches T₁ T' (f a) (g a)) : Matches T T' (x >>= f) (y >>= g) := by
  intro m₁ m₂ hm
  have hrel := hx m₁ m₂ hm
  cases h₁ : x m₁ with
  | none =>
    rw [h₁] at hrel
    cases h₂ : y m₂ with
    | none => rw [bind_none h₁, bind_none h₂]; exact .none
    | some q => rw [h₂] at hrel; cases hrel
  | some p =>
    rw [h₁] at hrel
    cases h₂ : y m₂ with
    | none => rw [h₂] at hrel; cases hrel
    | some q =>
      rw [h₂] at hrel
      obtain ⟨r, m₁'⟩ := p
      obtain ⟨r', m₂'⟩ := q
      cases hrel with
      | some hpq =>
        obtain ⟨rfl, hsink, hscopes⟩ : r = r' ∧ _ := hpq
        cases r with
        | error e =>
          rw [bind_error h₁, bind_error h₂]
          exact .some ⟨rfl, hsink, hsub _ _ hscopes⟩
        | ok a => rw [bind_ok h₁, bind_ok h₂]; exact hf a m₁' m₂' ⟨hsink, hscopes⟩

theorem inScope (h : Matches T₁ T₁' x y) (hopen : ∀ s t, T s t → T₁ s.push t.push)
    (hclose : ∀ s t, T₁' s t → T' s.pop t.pop) :
    Matches T T' (Action.inScope x) (Action.inScope y) := by
  intro m₁ m₂ hm
  have hrel := h m₁.opened m₂.opened ⟨hm.1, hopen _ _ hm.2⟩
  rw [inScope_eq_map, inScope_eq_map]
  generalize x m₁.opened = p, y m₂.opened = q at hrel
  cases hrel with
  | none => exact .none
  | some hpq => exact .some ⟨hpq.1, hpq.2.1, hclose _ _ hpq.2.2⟩

theorem inScope_eq (h : Matches Eq Eq x y) :
    Matches Eq Eq (Action.inScope x) (Action.inScope y) :=
  h.inScope (fun _ _ => congrArg Scopes.push) fun _ _ => congrArg Scopes.pop

/-- A scope on one side alone. -/
theorem inScope_left (h : Matches T₁ T₁' x y) (hopen : ∀ s t, T s t → T₁ s.push t)
    (hclose : ∀ s t, T₁' s t → T' s.pop t) : Matches T T' (Action.inScope x) y := by
  intro m₁ m₂ hm
  have hrel := h m₁.opened m₂ ⟨hm.1, hopen _ _ hm.2⟩
  rw [inScope_eq_map]
  generalize x m₁.opened = p, y m₂ = q at hrel
  cases hrel with
  | none => exact .none
  | some hpq => exact .some ⟨hpq.1, hpq.2.1, hclose _ _ hpq.2.2⟩

theorem symm (h : Matches Eq Eq x y) : Matches Eq Eq y x := by
  intro m₁ m₂ hm
  have hrel := h m₂ m₁ ⟨hm.1.symm, hm.2.symm⟩
  generalize y m₁ = p, x m₂ = q at hrel
  cases hrel with
  | none => exact .none
  | some hpq => exact .some ⟨hpq.1.symm, hpq.2.1.symm, hpq.2.2.symm⟩

theorem trans (h : Matches T T' x y) (h' : Matches Eq Eq y z) : Matches T T' x z := by
  intro m₁ m₂ hm
  have hrel := h m₁ m₂ hm
  have hrel' := h' m₂ m₂ ⟨rfl, rfl⟩
  generalize x m₁ = p, y m₂ = q, z m₂ = q' at hrel hrel'
  cases hrel with
  | none => cases hrel'; exact .none
  | some hpq =>
    cases hrel' with
    | some hqq => exact .some ⟨hpq.1.trans hqq.1, hpq.2.1.trans hqq.2.1, hqq.2.2 ▸ hpq.2.2⟩

/-! ### Records -/

theorem note_left (h : Matches T T' x y) (r : Record) :
    Matches T T' (note r >>= fun _ => x) y :=
  fun m₁ m₂ hm => h { m₁ with journal := m₁.journal.note r } m₂ hm

theorem note_right (h : Matches T T' x y) (r : Record) :
    Matches T T' x (note r >>= fun _ => y) :=
  fun m₁ m₂ hm => h m₁ { m₂ with journal := m₂.journal.note r } hm

theorem visiting_left {x y : Action Value} (h : Matches T T' x y) (kind : Node.Kind) :
    Matches T T' (visiting kind x) y := by
  refine note_left ?_ _
  have hy : y >>= Pure.pure = y := bind_pure y
  rw [← hy]
  refine h.bind (fun _ _ hs => hs) fun value => note_left ?_ _
  exact (compositional_matches T').pure value

theorem visiting_right {x y : Action Value} (h : Matches T T' x y) (kind : Node.Kind) :
    Matches T T' x (visiting kind y) := by
  refine note_right ?_ _
  have hx : x >>= Pure.pure = x := bind_pure x
  rw [← hx]
  refine h.bind (fun _ _ hs => hs) fun value => note_right ?_ _
  exact (compositional_matches T').pure value

end Matches

/-! ### Runs that match -/

/-- If the first of two runs on the same scopes ends, the second ends alike. -/
theorem Matches.exists_some {x y : Action α} (h : Matches Eq Eq x y) {s s' : Scopes}
    {w w' : Sink} {j j' : Journal} {r : Except RuntimeError α}
    (hx : x ⟨s, w, j⟩ = some (r, ⟨s', w', j'⟩)) (i : Journal) :
    ∃ i', y ⟨s, w, i⟩ = some (r, ⟨s', w', i'⟩) := by
  have hm : Machine.On Eq ⟨s, w, j⟩ ⟨s, w, i⟩ := ⟨rfl, rfl⟩
  obtain ⟨⟨_, _, i'⟩, hy, rfl, rfl⟩ := Lockstep.exists_some h hm hx
  exact ⟨i', hy⟩

end Action

/-! ## Stacks over related scopes -/

namespace Scopes

variable {B : Scopes → Scopes → Prop} {k : Nat} {s t : Scopes}

/-- Scopes in the relation agree on lookups, and stay in it under definitions and
assignments. -/
structure Interchangeable (B : Scopes → Scopes → Prop) : Prop where
  get?_eq : ∀ {s t}, B s t → ∀ name, s.get? name = t.get? name
  define : ∀ {s t}, B s t → ∀ name value, B (s.define name value) (t.define name value)
  assign? : ∀ {s t}, B s t → ∀ name value,
    Option.Rel B (s.assign? name value) (t.assign? name value)

theorem interchangeable_eq : Interchangeable Eq where
  get?_eq h _ := by rw [h]
  define h _ _ := by rw [h]
  assign? := by
    rintro s _ rfl name value
    cases s.assign? name value with
    | none => exact .none
    | some t => exact .some rfl

/-- The `k` innermost frames are the same, and the scopes below them are in `B`. -/
inductive Over (B : Scopes → Scopes → Prop) : Nat → Scopes → Scopes → Prop where
  | base {s t : Scopes} : B s t → Over B 0 s t
  | frame {k : Nat} {s t : Scopes} (f : Frame) :
    Over B k s t → Over B (k + 1) ⟨f, s.frames⟩ ⟨f, t.frames⟩

theorem over_zero_iff : Over B 0 s t ↔ B s t := by
  constructor
  · rintro ⟨h⟩
    assumption
  · exact .base

namespace Over

theorem get?_eq (hB : Interchangeable B) (h : Over B k s t) (name : String) :
    s.get? name = t.get? name := by
  induction h with
  | base h => exact hB.get?_eq h name
  | frame f _ ih => rw [get?_cons, get?_cons, ih]

theorem push (h : Over B k s t) : Over B (k + 1) s.push t.push :=
  .frame .empty h

theorem pop (h : Over B (k + 1) s t) : Over B k s.pop t.pop := by
  cases h with
  | frame f h => exact h

theorem define (hB : Interchangeable B) (h : Over B k s t) (name : String) (value : Value) :
    Over B k (s.define name value) (t.define name value) := by
  cases h with
  | base h => exact .base (hB.define h name value)
  | frame f hbelow => exact .frame (f.insert name value) hbelow

/-- An assignment that does not end in the frames on top goes on below them. -/
theorem assign? (hB : Interchangeable B) (h : Over B k s t) (name : String) (value : Value) :
    Option.Rel (Over B k) (s.assign? name value) (t.assign? name value) := by
  induction h with
  | @base s t h =>
    have hrel := hB.assign? h name value
    generalize s.assign? name value = a, t.assign? name value = b at hrel
    cases hrel with
    | none => exact .none
    | some h => exact .some (.base h)
  | @frame k s t f hbelow ih =>
    rw [assign?_cons, assign?_cons]
    split
    · exact .some (.frame (f.insert name value) hbelow)
    · generalize s.assign? name value = a, t.assign? name value = b at ih
      cases ih with
      | none => exact .none
      | some h => exact .some (.frame f h)

end Over

namespace Interchangeable

open TreeScript.Action

theorem touching (hB : Interchangeable B) :
    Touching (fun x y => ∀ k, Matches (Over B k) (Over B k) x y) Set.univ True where
  pure a k := (compositional_matches _).pure a
  bind hx hf k := (compositional_matches _).bind (hx k) fun a => hf a k
  note r hr k := (compositional_matches _).note r hr
  fail e _ k := (compositional_matches _).fail e
  cutOff k := (compositional_matches _).cutOff
  inScope h k := (h (k + 1)).inScope (fun _ _ hs => hs.push) fun _ _ hs => hs.pop
  declare name _ k _ _ hm := .some ⟨rfl, hm.1, hm.2.define hB name .unit⟩
  get name _ k m₁ m₂ hm := by
    have hof := (compositional_matches (Over B k)).ofOption (.undefinedVariable name)
      (m₁.scopes.get? name) m₁ m₂ hm
    unfold Action.get
    rwa [← hm.2.get?_eq hB name]
  assign name _ value k m₁ m₂ hm := by
    have hrel := hm.2.assign? hB name value
    unfold Action.assign
    generalize m₁.scopes.assign? name value = a, m₂.scopes.assign? name value = b at hrel
    cases hrel with
    | none => exact (compositional_matches (Over B k)).fail _ m₁ m₂ hm
    | some hs => exact .some ⟨rfl, hm.1, hs⟩
  print _ value k := by
    rintro ⟨s₁, sink, j₁⟩ ⟨s₂, _, j₂⟩ ⟨rfl, h⟩
    unfold Action.print
    dsimp only
    split
    · exact .some ⟨rfl, rfl, h⟩
    · exact .some ⟨rfl, rfl, h⟩

/-- A tree does the same on stacks that differ in interchangeable scopes. -/
theorem evaluate (hB : Interchangeable B) (laps : Nat) (n : Node) (k : Nat) :
    Matches (Over B k) (Over B k) (n.evaluate laps) (n.evaluate laps) :=
  hB.touching.evaluate laps (fun _ _ => trivial) (fun _ => trivial) k

theorem evaluateAll (hB : Interchangeable B) (laps : Nat) (last : Value) (nodes : List Node)
    (k : Nat) : Matches (Over B k) (Over B k) (Node.evaluateAll laps last nodes)
      (Node.evaluateAll laps last nodes) :=
  (compositional_matches _).evaluateAll nodes last fun n _ => hB.evaluate laps n k

end Interchangeable

end Scopes

/-! ## Trees -/

namespace Node

open TreeScript.Action Scopes

/-- A tree runs alike on the same scopes, whatever the journal. -/
theorem matches_evaluate (laps : Nat) (n : Node) :
    Matches Eq Eq (n.evaluate laps) (n.evaluate laps) := by
  have h := interchangeable_eq.evaluate laps n 0
  simpa only [Matches, Machine.On, over_zero_iff] using h

/-- On the same scopes and sink both trees return the same and leave the same scopes and
sink, or neither returns. The journals may differ. -/
def Equivalent (a b : Node) : Prop :=
  ∀ (s : Scopes) (w : Sink) (j₁ j₂ : Journal) (r : Except RuntimeError Value) (s' : Scopes)
    (w' : Sink), (∃ j, a.Returns ⟨s, w, j₁⟩ r ⟨s', w', j⟩) ↔
      ∃ j, b.Returns ⟨s, w, j₂⟩ r ⟨s', w', j⟩

theorem equivalent_of_matches {a b : Node}
    (h : ∀ laps, Matches Eq Eq (a.evaluate laps) (b.evaluate laps)) : Equivalent a b := by
  intro s w j₁ j₂ r s' w'
  constructor
  · rintro ⟨j, laps, ha⟩
    obtain ⟨i, hb⟩ := (h laps).exists_some ha j₂
    exact ⟨i, laps, hb⟩
  · rintro ⟨j, laps, hb⟩
    obtain ⟨i, ha⟩ := (h laps).symm.exists_some hb j₁
    exact ⟨i, laps, ha⟩

end Node

end TreeScript
