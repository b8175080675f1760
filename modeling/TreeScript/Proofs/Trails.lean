import TreeScript.Proofs.Runs

/-!
# Trails

A run that ends leaves a trail: the scopes before it, the records it made, and the
scopes after it. The records do not depend on what the journal held before, or on
whether it keeps anything. `Action.Retraces T x y` says that every run of `x` is a run
of `y` too, from any journal, and that its trail is in `T`. It is compositional for
any `T` that holds of quiet records and of trails put together
(`Action.compositional_retraces`). An action that retraces itself leaves trails in `T`.

`Nested` describes the records of a run that opens and closes scopes in good order.
Each closing belongs to an opening before it, so it finds at least one frame more
than there were at the start (`Nested.depthAfter_popped`).
-/

namespace TreeScript

/-- Makes records in turn. -/
def Journal.noteAll (j : Journal) (rs : List Record) : Journal :=
  rs.foldl note j

theorem Journal.noteAll_append (j : Journal) (rs rs' : List Record) :
    j.noteAll (rs ++ rs') = (j.noteAll rs).noteAll rs' :=
  List.foldl_append

/-! ## Actions that leave a trail -/

/-- A relation of scopes, records and scopes that holds of quiet records and of
trails put together. -/
structure Trail (T : Scopes → List Record → Scopes → Prop) : Prop where
  refl : ∀ s, T s [] s
  quiet : ∀ s r, r.depth? = none → T s [r] s
  trans : ∀ {s t u rs rs'}, T s rs t → T t rs' u → T s (rs ++ rs') u

namespace Action

variable {α : Type} {T T' : Scopes → List Record → Scopes → Prop}

/-- Every run of the first action that ends is a run of the second, which makes the
same records from any journal, and its trail is in `T`. -/
def Retraces (T : Scopes → List Record → Scopes → Prop) (x y : Action α) : Prop :=
  ∀ m r m', x m = some (r, m') →
    ∃ rs, (∀ j, y { m with journal := j } = some (r, { m' with journal := j.noteAll rs })) ∧
      T m.scopes rs m'.scopes

theorem compositional_retraces (hT : Trail T) : Compositional (Retraces T) where
  pure a := by
    rintro m r m' h
    cases h
    exact ⟨[], fun j => rfl, hT.refl _⟩
  bind := by
    rintro α β x y f g hx hf m r m' h
    rcases bind_eq_some_iff.1 h with ⟨e, h₁, rfl⟩ | ⟨a, m₁, h₁, h₂⟩
    · obtain ⟨rs, hrs, ht⟩ := hx _ _ _ h₁
      exact ⟨rs, fun j => bind_error (hrs j), ht⟩
    · obtain ⟨rs, hrs, ht⟩ := hx _ _ _ h₁
      obtain ⟨rs', hrs', ht'⟩ := hf a _ _ _ h₂
      refine ⟨rs ++ rs', fun j => ?_, hT.trans ht ht'⟩
      rw [bind_ok (hrs j), Journal.noteAll_append]
      exact hrs' _
  note record hquiet := by
    rintro m r m' h
    cases h
    exact ⟨[record], fun j => rfl, hT.quiet _ _ hquiet⟩
  fail e := by
    rintro m r m' h
    cases h
    exact ⟨[.errorCreated e], fun j => rfl, hT.quiet _ _ rfl⟩
  cutOff := by
    rintro α m r m' h
    cases h

/-- An action in a scope of its own leaves the trail of its body between an opening
and a closing. -/
theorem Retraces.inScope {x y : Action α} (h : Retraces T' x y)
    (hscope : ∀ s rs t, T' s.push rs t →
      T s (.scopePushed s.push.depth :: (rs ++ [.scopePopped t.pop.depth])) t.pop) :
    Retraces T (inScope x) (inScope y) := by
  intro m r m' hr
  obtain ⟨m₁, h₁, rfl⟩ := inScope_eq_some_iff.1 hr
  obtain ⟨rs, hrs, ht⟩ := h _ _ _ h₁
  refine ⟨_, fun j => inScope_eq_some_iff.2 ⟨_, hrs _, ?_⟩, hscope _ _ _ ht⟩
  rw [← List.cons_append, Journal.noteAll_append]
  rfl

/-- A print leaves the scopes alone, and no record unless it fails. -/
theorem retraces_print (hT : Trail T) (value : Value) :
    Retraces T (print value) (print value) := by
  intro m r m' h
  unfold print at h ⊢
  dsimp only at h ⊢
  split at h
  · cases h
    exact ⟨[], fun j => rfl, hT.refl _⟩
  · cases h
    exact ⟨[_], fun j => rfl, hT.quiet _ _ rfl⟩

theorem retraces_get (hT : Trail T) (name : String) : Retraces T (get name) (get name) := by
  intro m r m' h
  have hof := (compositional_retraces hT).ofOption (.undefinedVariable name) (m.scopes.get? name)
  exact hof m r m' h

end Action

/-! ## Scopes in good order -/

/-- The depth of the stack after some records, from the depth before them. -/
def depthAfter (depth : Nat) (rs : List Record) : Nat :=
  rs.foldl (fun depth r => r.depth?.getD depth) depth

theorem depthAfter_append (d : Nat) (rs rs' : List Record) :
    depthAfter d (rs ++ rs') = depthAfter (depthAfter d rs) rs' :=
  List.foldl_append

theorem depthAfter_cons (d : Nat) (r : Record) (rs : List Record) :
    depthAfter d (r :: rs) = depthAfter (r.depth?.getD d) rs :=
  rfl

/-- Records that open and close scopes in good order, on a stack of the given depth. -/
inductive Nested : Nat → List Record → Prop where
  | nil (d : Nat) : Nested d []
  | quiet {d : Nat} {r : Record} {rs : List Record} :
    r.depth? = none → Nested d rs → Nested d (r :: rs)
  | scope {d : Nat} {inner rest : List Record} :
    Nested (d + 1) inner → Nested d rest →
      Nested d (.scopePushed (d + 1) :: (inner ++ .scopePopped d :: rest))

/-- An element stands in the first part of a list, between the parts, or in the last. -/
theorem append_cons_cases {α : Type} {a b : α} {xs ys before after : List α}
    (h : xs ++ a :: ys = before ++ b :: after) :
    (∃ mid, xs = before ++ b :: mid) ∨ (before = xs ∧ b = a) ∨
      ∃ mid, before = xs ++ a :: mid ∧ ys = mid ++ b :: after := by
  rcases List.append_eq_append_iff.1 h with ⟨mid, rfl, hmid⟩ | ⟨mid, rfl, hmid⟩
  · cases mid with
    | nil => exact .inr (.inl ⟨List.append_nil xs, (List.cons_eq_cons.1 hmid).1.symm⟩)
    | cons a' mid =>
      obtain ⟨rfl, hys⟩ := List.cons_eq_cons.1 hmid
      exact .inr (.inr ⟨mid, rfl, hys⟩)
  · cases mid with
    | nil => exact .inr (.inl ⟨(List.append_nil before).symm, (List.cons_eq_cons.1 hmid).1⟩)
    | cons b' mid =>
      obtain ⟨rfl, -⟩ := List.cons_eq_cons.1 hmid
      exact .inl ⟨mid, rfl⟩

namespace Nested

theorem append {d : Nat} {rs rs' : List Record} (h : Nested d rs) (h' : Nested d rs') :
    Nested d (rs ++ rs') := by
  induction h with
  | nil => exact h'
  | quiet hr _ ih => exact .quiet hr (ih h')
  | scope hinner _ _ ih =>
    simp only [List.cons_append, List.append_assoc]
    exact .scope hinner (ih h')

/-- The stack is as deep after the records as before. -/
theorem depthAfter_eq {d : Nat} {rs : List Record} (h : Nested d rs) : depthAfter d rs = d := by
  induction h with
  | nil => rfl
  | quiet hr _ ih => rw [depthAfter_cons, hr, Option.getD_none, ih]
  | scope _ _ ihi ihr =>
    rw [depthAfter_cons, depthAfter_append]
    exact (congrArg (depthAfter · _) ihi).trans ihr

/-- A closing finds one frame more than it leaves, and leaves those of the start. -/
theorem depthAfter_popped {d : Nat} {rs : List Record} (h : Nested d rs) :
    ∀ {before after : List Record} {k : Nat}, rs = before ++ .scopePopped k :: after →
      depthAfter d before = k + 1 ∧ d ≤ k := by
  induction h with
  | nil =>
    intro before after k h
    simp at h
  | quiet hr _ ih =>
    intro before after k h
    cases before with
    | nil =>
      obtain ⟨rfl, -⟩ := List.cons_eq_cons.1 h
      simp [Record.depth?] at hr
    | cons b before =>
      obtain ⟨rfl, hrest⟩ := List.cons_eq_cons.1 h
      rw [depthAfter_cons, hr]
      exact ih hrest
  | @scope d inner rest hinner _ ihi ihr =>
    intro before after k h
    cases before with
    | nil => cases (List.cons_eq_cons.1 h).1
    | cons b before =>
      obtain ⟨rfl, hrest⟩ := List.cons_eq_cons.1 h
      show depthAfter (d + 1) before = k + 1 ∧ d ≤ k
      -- The closing stands inside the scope, or is the one of this scope, or comes later.
      obtain ⟨mid, rfl⟩ | ⟨rfl, hpop⟩ | ⟨mid, rfl, htail⟩ := append_cons_cases hrest
      · obtain ⟨hk, hle⟩ := ihi rfl
        exact ⟨hk, by omega⟩
      · cases hpop
        exact ⟨hinner.depthAfter_eq, Nat.le_refl _⟩
      · rw [depthAfter_append, hinner.depthAfter_eq]
        exact ihr htail

end Nested

end TreeScript
