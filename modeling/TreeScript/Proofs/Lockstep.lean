import TreeScript.Proofs.Runs

/-!
# Runs in lockstep

`Action.Lockstep R x y` compares a run of `x` with a run of `y` on machines in the
relation `R`: both are cut off, or both end, with the same result and on machines
in `R` again. `Action.Alongside f R x y` does so with the errors of `x` translated by `f`.
Both are cases of `Action.Coupled Q E R x y`, in which values are related by `Q` and errors
by `E`.

For a relation that does not care about records, `Action.congruence_alongside` makes it
a congruence if `f` leaves errors that name no variable alone, and lockstep is
compositional (`Action.compositional_lockstep`). Both pass a scope where opening and
closing scopes go from `R` to another relation and back (`Action.Lockstep.inScope`).
-/

namespace TreeScript.Action

variable {α β : Type} {f : RuntimeError → RuntimeError} {R R' : Machine → Machine → Prop}

/-- Values in one relation, or errors in another. -/
inductive Ends (Q : α → β → Prop) (E : RuntimeError → RuntimeError → Prop) :
    Except RuntimeError α → Except RuntimeError β → Prop where
  | ok {a : α} {b : β} : Q a b → Ends Q E (.ok a) (.ok b)
  | error {e e' : RuntimeError} : E e e' → Ends Q E (.error e) (.error e')

/-- Both runs are cut off, or both end on machines in `R`, in values in `Q` or errors in `E`. -/
def Coupled (Q : α → β → Prop) (E : RuntimeError → RuntimeError → Prop)
    (R : Machine → Machine → Prop) (x : Action α) (y : Action β) : Prop :=
  ∀ m₁ m₂, R m₁ m₂ → Option.Rel (fun p q => Ends Q E p.1 q.1 ∧ R p.2 q.2) (x m₁) (y m₂)

/-- Both runs are cut off, or both end on machines in `R`, in the same value or in an error
and its translation. -/
def Alongside (f : RuntimeError → RuntimeError) (R : Machine → Machine → Prop)
    (x y : Action α) : Prop :=
  ∀ m₁ m₂, R m₁ m₂ →
    Option.Rel (fun p q => q.1 = p.1.mapError f ∧ R p.2 q.2) (x m₁) (y m₂)

/-- Both runs are cut off, or both end in the same result on machines in `R`. -/
def Lockstep (R : Machine → Machine → Prop) (x y : Action α) : Prop :=
  ∀ m₁ m₂, R m₁ m₂ → Option.Rel (fun p q => p.1 = q.1 ∧ R p.2 q.2) (x m₁) (y m₂)

theorem mapError_id (r : Except RuntimeError α) : r.mapError id = r := by
  cases r <;> rfl

theorem alongside_id {x y : Action α} : Alongside id R x y ↔ Lockstep R x y := by
  simp only [Alongside, Lockstep, mapError_id, eq_comm]

theorem ends_mapError_iff {r r' : Except RuntimeError α} :
    Ends Eq (fun e e' => e' = f e) r r' ↔ r' = r.mapError f := by
  constructor
  · rintro (⟨rfl⟩ | ⟨rfl⟩) <;> rfl
  · rintro rfl
    cases r with
    | ok a => exact .ok rfl
    | error e => exact .error rfl

theorem coupled_iff_alongside {x y : Action α} :
    Coupled Eq (fun e e' => e' = f e) R x y ↔ Alongside f R x y := by
  simp only [Coupled, Alongside, ends_mapError_iff]

namespace Coupled

variable {α' β' : Type} {Q : α → β → Prop} {Q' : α' → β' → Prop}
  {E : RuntimeError → RuntimeError → Prop}

theorem bind {x : Action α} {y : Action β} {g : α → Action α'} {h : β → Action β'}
    (hx : Coupled Q E R x y) (hg : ∀ a b, Q a b → Coupled Q' E R (g a) (h b)) :
    Coupled Q' E R (x >>= g) (y >>= h) := by
  intro m₁ m₂ hm
  have hrel := hx m₁ m₂ hm
  cases h₁ : x m₁ with
  | none =>
    rw [h₁] at hrel
    cases h₂ : y m₂ with
    | none => rw [bind_none h₁, bind_none h₂]; exact .none
    | some q => rw [h₂] at hrel; cases hrel
  | some p =>
    rw [h₁] at hrel
    cases h₂ : y m₂ with
    | none => rw [h₂] at hrel; cases hrel
    | some q =>
      rw [h₂] at hrel
      obtain ⟨r, m₁'⟩ := p
      obtain ⟨r', m₂'⟩ := q
      cases hrel with
      | some hpq =>
        obtain ⟨hr, hm⟩ := hpq
        cases hr with
        | error he => rw [bind_error h₁, bind_error h₂]; exact .some ⟨.error he, hm⟩
        | ok ha => rw [bind_ok h₁, bind_ok h₂]; exact hg _ _ ha m₁' m₂' hm

theorem inScope {x : Action α} {y : Action β} (h : Coupled Q E R' x y)
    (hopen : ∀ m₁ m₂, R m₁ m₂ → R' m₁.opened m₂.opened)
    (hclose : ∀ m₁ m₂, R' m₁ m₂ → R m₁.closed m₂.closed) :
    Coupled Q E R (inScope x) (inScope y) := by
  intro m₁ m₂ hm
  have hrel := h _ _ (hopen m₁ m₂ hm)
  rw [inScope_eq_map, inScope_eq_map]
  generalize x m₁.opened = p, y m₂.opened = q at hrel
  cases hrel with
  | none => exact .none
  | some hpq => exact .some ⟨hpq.1, hclose _ _ hpq.2⟩

/-- If the first of two coupled runs ends, the second ends too. -/
theorem exists_right {x : Action α} {y : Action β} (h : Coupled Q E R x y) {m₁ m₂ m₁' : Machine}
    {r : Except RuntimeError α} (hm : R m₁ m₂) (h₁ : x m₁ = some (r, m₁')) :
    ∃ r' m₂', y m₂ = some (r', m₂') ∧ Ends Q E r r' ∧ R m₁' m₂' := by
  have hrel := h m₁ m₂ hm
  rw [h₁] at hrel
  cases h₂ : y m₂ with
  | none => rw [h₂] at hrel; cases hrel
  | some q =>
    rw [h₂] at hrel
    cases hrel with
    | some hpq => exact ⟨q.1, q.2, rfl, hpq⟩

/-- If the second ends, the first ends too. -/
theorem exists_left {x : Action α} {y : Action β} (h : Coupled Q E R x y) {m₁ m₂ : Machine}
    {q : Except RuntimeError β × Machine} (hm : R m₁ m₂) (h₂ : y m₂ = some q) :
    ∃ p, x m₁ = some p := by
  have hrel := h m₁ m₂ hm
  rw [h₂] at hrel
  cases h₁ : x m₁ with
  | none => rw [h₁] at hrel; cases hrel
  | some p => exact ⟨p, rfl⟩

end Coupled

namespace Alongside

theorem bind {x y : Action α} {g h : α → Action β} (hx : Alongside f R x y)
    (hg : ∀ a, Alongside f R (g a) (h a)) : Alongside f R (x >>= g) (y >>= h) := by
  refine coupled_iff_alongside.1 ((coupled_iff_alongside.2 hx).bind ?_)
  rintro a _ rfl
  exact coupled_iff_alongside.2 (hg a)

theorem inScope {x y : Action α} (h : Alongside f R' x y)
    (hopen : ∀ m₁ m₂, R m₁ m₂ → R' m₁.opened m₂.opened)
    (hclose : ∀ m₁ m₂, R' m₁ m₂ → R m₁.closed m₂.closed) :
    Alongside f R (inScope x) (inScope y) :=
  coupled_iff_alongside.1 ((coupled_iff_alongside.2 h).inScope hopen hclose)

/-- If the first of two runs alongside each other ends, the second ends too. -/
theorem exists_some {x y : Action α} (h : Alongside f R x y) {m₁ m₂ m₁' : Machine}
    {r : Except RuntimeError α} (hm : R m₁ m₂) (h₁ : x m₁ = some (r, m₁')) :
    ∃ m₂', y m₂ = some (r.mapError f, m₂') ∧ R m₁' m₂' := by
  obtain ⟨r', m₂', h₂, hr, hm'⟩ := (coupled_iff_alongside.2 h).exists_right hm h₁
  obtain rfl := ends_mapError_iff.1 hr
  exact ⟨m₂', h₂, hm'⟩

/-- If the second ends, the first ends too. -/
theorem exists_some_left {x y : Action α} (h : Alongside f R x y) {m₁ m₂ : Machine}
    {q : Except RuntimeError α × Machine} (hm : R m₁ m₂) (h₂ : y m₂ = some q) :
    ∃ p, x m₁ = some p :=
  (coupled_iff_alongside.2 h).exists_left hm h₂

end Alongside

theorem congruence_alongside
    (hnote : ∀ m₁ m₂ r, R m₁ m₂ → R { m₁ with journal := m₁.journal.note r }
      { m₂ with journal := m₂.journal.note r })
    (hf : ∀ e : RuntimeError, e.kind ≠ .undefinedVariable → f e = e) :
    Congruence (Alongside f R) where
  pure _ _ _ h := .some ⟨rfl, h⟩
  bind := Alongside.bind
  note r _ m₁ m₂ h := .some ⟨rfl, hnote m₁ m₂ r h⟩
  fail e he m₁ m₂ h := .some ⟨congrArg _ (hf e he).symm, hnote m₁ m₂ _ h⟩
  cutOff _ _ _ := .none

theorem compositional_lockstep
    (hnote : ∀ m₁ m₂ r, R m₁ m₂ → R { m₁ with journal := m₁.journal.note r }
      { m₂ with journal := m₂.journal.note r }) : Compositional (Lockstep R) where
  pure _ _ _ h := .some ⟨rfl, h⟩
  bind hx hf := alongside_id.1 ((alongside_id.2 hx).bind fun a => alongside_id.2 (hf a))
  note r _ _ _ h := .some ⟨rfl, hnote _ _ r h⟩
  fail _ _ _ h := .some ⟨rfl, hnote _ _ _ h⟩
  cutOff _ _ _ := .none

theorem Lockstep.inScope {x y : Action α} (h : Lockstep R' x y)
    (hopen : ∀ m₁ m₂, R m₁ m₂ → R' m₁.opened m₂.opened)
    (hclose : ∀ m₁ m₂, R' m₁ m₂ → R m₁.closed m₂.closed) :
    Lockstep R (inScope x) (inScope y) :=
  alongside_id.1 ((alongside_id.2 h).inScope hopen hclose)

/-- If the first of two runs in lockstep ends, the second ends too. -/
theorem Lockstep.exists_some {x y : Action α} (h : Lockstep R x y) {m₁ m₂ m₁' : Machine}
    {r : Except RuntimeError α} (hm : R m₁ m₂) (h₁ : x m₁ = some (r, m₁')) :
    ∃ m₂', y m₂ = some (r, m₂') ∧ R m₁' m₂' := by
  have h' := (alongside_id.2 h).exists_some hm h₁
  rwa [mapError_id] at h'

end TreeScript.Action
