import TreeScript.Proofs.Discipline
import TreeScript.Proofs.Flattening
import TreeScript.Proofs.Semantics.Complete

/-!
# Loops and their first lap

A loop does what a branch does that runs its body and then the whole loop
(`Node.whileLoop_unfolds`), if its condition declares nothing. The rest of the loop runs under
two scopes more on that side. They stay empty, since neither a block nor a loop with such a
condition declares anything in the scope it is evaluated in, and a scope without declarations
makes no difference (`Action.matches_inScope`).

A condition that is no boolean is reported for the construct that tests it, and the first test
of the loop is the one of the branch.
-/

namespace TreeScript

/-! ## Scopes without declarations -/

/-- A scope in which nothing was declared leaves the bindings to the scope below it. -/
theorem Scopes.Merged.pop_eq {d : Nat} {A : List String} {s t u : Scopes} (hm : Merged d s t)
    (hw : Within [] A u.push s) : s.pop = t := by
  obtain ⟨hget, -⟩ := hm
  rename_i f g h rest
  have hempty : ∀ x, f.get? x = none := by
    intro x
    by_contra hne
    rcases hw.new x (Option.isSome_iff_ne_none.2 hne) with hx | hx
    · cases hx
    · cases hx
  have hgh : g = h := Frame.ext_get? fun x => by rw [hget, hempty, Option.none_or]
  rw [← hgh]
  rfl

namespace Action

open Scopes

variable {α : Type}

theorem inScope_bind_pure {β : Type} (x : Action α) (f : α → β) :
    inScope (x >>= fun a => Pure.pure (f a)) = inScope x >>= fun a => Pure.pure (f a) := by
  funext m
  rw [inScope_eq_map]
  cases hx : x m.opened with
  | none => rw [bind_none hx, bind_none (by rw [inScope_eq_map, hx]; rfl)]; rfl
  | some p =>
    obtain ⟨r, m'⟩ := p
    have hscope : inScope x m = some (r, m'.closed) := by rw [inScope_eq_map, hx]; rfl
    cases r with
    | error e => rw [bind_error hx, bind_error hscope]; rfl
    | ok a => rw [bind_ok hx, bind_ok hscope]; rfl

/-- A scope makes no difference to an action that declares nothing in it. -/
theorem matches_inScope {x : Action α} {A : List String} (hx : Retraces (Orderly [] A) x x)
    (hmerged : Matches (Over (Merged 0) 0) (Over (Merged 0) 0) x x) :
    Matches Eq Eq (inScope x) x := by
  intro m₁ m₂ hm
  have hopened : Machine.On (Over (Merged 0) 0) m₁.opened m₂ := by
    refine ⟨hm.1, .base ?_⟩
    rw [← hm.2]
    exact .intro (fun _ => rfl) (Nat.zero_le _)
  have hrel := hmerged _ _ hopened
  rw [inScope_eq_map]
  cases h₁ : x m₁.opened with
  | none =>
    rw [h₁] at hrel
    cases h₂ : x m₂ with
    | none => exact .none
    | some q => rw [h₂] at hrel; cases hrel
  | some p =>
    obtain ⟨r, m₁'⟩ := p
    obtain ⟨-, -, hwithin, -⟩ := hx _ _ _ h₁
    rw [h₁] at hrel
    cases h₂ : x m₂ with
    | none => rw [h₂] at hrel; cases hrel
    | some q =>
      rw [h₂] at hrel
      cases hrel with
      | some hpq => exact .some ⟨hpq.1, hpq.2.1, (over_zero_iff.1 hpq.2.2).pop_eq hwithin⟩

end Action

namespace Node

open TreeScript.Action Scopes

variable {test body : Node}

theorem matches_inScope_evaluate {n : Node} (hn : n.declared = []) (laps : Nat) :
    Matches Eq Eq (inScope (n.evaluate laps)) (n.evaluate laps) :=
  matches_inScope (evaluate_retraces laps n (by rw [hn]; exact List.Subset.refl _)
    (List.Subset.refl _)) ((interchangeable_merged 0).evaluate laps n 0)

/-- A block of nodes that declare nothing is the nodes in turn. -/
theorem matches_block {nodes : List Node} (h : ∀ n ∈ nodes, n.declared = []) (laps : Nat) :
    Matches Eq Eq ((block nodes).evaluate laps) (evaluateAll laps .unit nodes) := by
  have hretraces : Retraces (Orderly [] (nodes.flatMap assigned)) (evaluateAll laps .unit nodes)
      (evaluateAll laps .unit nodes) :=
    (compositional_retraces (trail_orderly _ _)).evaluateAll nodes .unit fun n hn =>
      evaluate_retraces laps n (by rw [h n hn]; exact List.Subset.refl _)
        fun x hx => List.mem_flatMap_of_mem hn hx
  have hscope := matches_inScope hretraces
    ((interchangeable_merged 0).evaluateAll laps .unit nodes 0)
  simp only [evaluate]
  exact (hscope.note_left _).visiting_left _

/-! ## Laps -/

/-- A test, and an action if it holds. -/
def tested (construct : Construct) (test next : Action Value) : Action Value :=
  condition construct test >>= fun holds => if holds then next else Pure.pure .unit

/-- A lap in a block, and a loop after it. -/
def lapAndLoop (laps spare : Nat) (test body : Node) : Action Value :=
  (block [body]).evaluate laps >>= fun _ => loop laps test body spare 0

/-- A lap is the body in a block. -/
theorem matches_lap (laps : Nat) (body : Node) {x y : Action Value} (h : Matches Eq Eq x y) :
    Matches Eq Eq ((inScope do let _ ← body.evaluate laps) >>= fun _ => x)
      ((block [body]).evaluate laps >>= fun _ => y) := by
  have hscope : Matches Eq Eq (inScope (body.evaluate laps)) ((block [body]).evaluate laps) := by
    have hall : evaluateAll laps .unit [body] = body.evaluate laps := bind_pure _
    simp only [evaluate, hall]
    exact ((matches_evaluate laps body).inScope_eq.note_right _).visiting_right _
  rw [inScope_bind_pure, bind_assoc]
  exact hscope.bind (fun _ _ hs => hs) fun _ => h

/-- The laps taken before are counted in a record only. -/
theorem matches_loop (laps : Nat) (test body : Node) : ∀ spare count count' : Nat,
    Matches Eq Eq (loop laps test body spare count) (loop laps test body spare count')
  | 0, _, _ => by
    have hP := compositional_matches Eq
    exact hP.bind hP.cutOff fun _ => hP.bind (hP.note _ rfl) fun _ => hP.pure Value.unit
  | spare + 1, count, count' => by
    have hP := compositional_matches Eq
    have hlap : Matches Eq Eq (inScope do let _ ← body.evaluate laps)
        (inScope do let _ ← body.evaluate laps) :=
      (hP.bind (matches_evaluate laps body) fun _ => hP.pure ()).inScope_eq
    rw [loop_succ, loop_succ]
    refine hP.bind (hP.condition _ (matches_evaluate laps test)) fun holds => ?_
    cases holds with
    | false => exact ((hP.pure Value.unit).note_left _).note_right _
    | true => exact hP.bind hlap fun _ => matches_loop laps test body spare _ _

/-- A loop tests its condition, and takes a lap and goes on if it holds. -/
theorem matches_loop_tested (laps spare : Nat) (test body : Node) :
    Matches Eq Eq (loop laps test body (spare + 1) 0)
      (tested .loop (test.evaluate laps) (lapAndLoop laps spare test body)) := by
  have hP := compositional_matches Eq
  rw [loop_succ]
  refine hP.bind (hP.condition _ (matches_evaluate laps test)) fun holds => ?_
  cases holds with
  | false => exact (hP.pure Value.unit).note_left _
  | true => exact matches_lap laps body (matches_loop laps test body spare 1 0)

/-- A branch tests its condition, and takes a lap and goes on with the loop if it holds. -/
theorem matches_ifThen_tested (laps : Nat) (h : test.declared = []) :
    Matches Eq Eq ((ifThen test (block [block [body], whileLoop test body])).evaluate laps)
      (tested .branch (test.evaluate laps) (lapAndLoop laps laps test body)) := by
  have hP := compositional_matches Eq
  have hlast : Matches Eq Eq (evaluateAll laps .unit [block [body], whileLoop test body])
      (lapAndLoop laps laps test body) := by
    refine hP.bind (matches_evaluate laps (block [body])) fun _ => ?_
    show Matches _ _ ((whileLoop test body).evaluate laps >>= Pure.pure) _
    rw [bind_pure, evaluate_whileLoop]
    exact (matches_loop laps test body laps 0 0).visiting_left _
  have hnodes : ∀ n ∈ [block [body], whileLoop test body], n.declared = [] := by
    simp only [List.forall_mem_cons, List.not_mem_nil, false_imp_iff, implies_true, and_true]
    exact ⟨rfl, h⟩
  have hscopes : Matches Eq Eq
      (inScope ((block [block [body], whileLoop test body]).evaluate laps))
      (lapAndLoop laps laps test body) :=
    ((matches_inScope_evaluate rfl laps).trans (matches_block hnodes laps)).trans hlast
  rw [evaluate]
  refine Matches.visiting_left ?_ _
  refine hP.bind (hP.condition _ (matches_evaluate laps test)) fun holds => ?_
  cases holds with
  | false => exact hP.pure Value.unit
  | true => exact hscopes.note_left _

/-- A larger bound on the laps changes nothing of a test and a loop that end. -/
theorem tested_extends {laps laps' spare spare' : Nat} (hle : laps ≤ laps')
    (hspare : spare ≤ spare') (construct : Construct) (test body : Node) :
    Extends (tested construct (test.evaluate laps) (lapAndLoop laps spare test body))
      (tested construct (test.evaluate laps') (lapAndLoop laps' spare' test body)) := by
  have hP := compositional_extends
  have htest := evaluate_extends hle test
  refine hP.bind (hP.condition _ htest) fun holds => ?_
  cases holds with
  | false => exact Extends.refl _
  | true =>
    refine hP.bind (evaluate_extends hle (block [body])) fun _ => hP.bind ?_ fun _ => .refl _
    have hlap := Extends.inScope (hP.bind (evaluate_extends hle body) fun _ => hP.pure ())
    exact Extends.repeatWhile (hP.condition _ htest) hlap 0 hspare

/-! ## The loop and the branch -/

theorem exists_whileLoop_returns_iff {m : Machine} {r : Except RuntimeError Value} {s : Scopes}
    {w : Sink} : (∃ j, (whileLoop test body).Returns m r ⟨s, w, j⟩) ↔
      ∃ laps j, tested .loop (test.evaluate laps) (lapAndLoop laps laps test body) m =
        some (r, ⟨s, w, j⟩) := by
  constructor
  · rintro ⟨j, laps, h⟩
    -- the loop has one lap less to go after its first test, which a larger bound makes up for
    cases laps with
    | zero =>
      rw [evaluate_whileLoop] at h
      cases h
    | succ laps =>
      have hmatches := matches_loop_tested (laps + 1) laps test body
      rw [evaluate_whileLoop] at h
      obtain ⟨i, hi⟩ := ((hmatches.visiting_left _).exists_some h m.journal)
      exact ⟨laps + 1, i, tested_extends (Nat.le_refl _) (Nat.le_succ _) _ _ _ _ _ hi⟩
  · rintro ⟨laps, j, h⟩
    have hmatches := matches_loop_tested (laps + 1) laps test body
    have h' := tested_extends (Nat.le_succ laps) (Nat.le_refl laps) _ _ _ _ _ h
    obtain ⟨i, hi⟩ := (hmatches.visiting_left .whileLoop).symm.exists_some h' m.journal
    rw [← evaluate_whileLoop] at hi
    exact ⟨i, laps + 1, hi⟩

theorem exists_ifThen_returns_iff (h : test.declared = []) {m : Machine}
    {r : Except RuntimeError Value} {s : Scopes} {w : Sink} :
    (∃ j, (ifThen test (block [block [body], whileLoop test body])).Returns m r ⟨s, w, j⟩) ↔
      ∃ laps j, tested .branch (test.evaluate laps) (lapAndLoop laps laps test body) m =
        some (r, ⟨s, w, j⟩) := by
  constructor
  · rintro ⟨j, laps, hr⟩
    exact ⟨laps, (matches_ifThen_tested laps h).exists_some hr m.journal⟩
  · rintro ⟨laps, j, hr⟩
    obtain ⟨i, hi⟩ := (matches_ifThen_tested laps h).symm.exists_some hr m.journal
    exact ⟨i, laps, hi⟩

theorem condition_of_ok {x : Action Value} {m m' : Machine} {v : Value}
    (h : x m = some (.ok v, m')) (construct : Construct) : condition construct x m =
      ofOption (.conditionNotBoolean construct v.kind) v.asBoolean? m' :=
  bind_ok h

/-- It does not matter what a test is made for, unless it ends in a value that is no boolean. -/
theorem tested_loop_rel_branch (x next : Action Value) (m : Machine) :
    Option.Rel (fun p q => Machine.On Eq p.2 q.2 ∧ (p.1 = q.1 ∨
        ∃ v m', x m = some (.ok v, m') ∧ v.asBoolean? = none ∧
          p.1 = .error (.conditionNotBoolean .loop v.kind) ∧
          q.1 = .error (.conditionNotBoolean .branch v.kind)))
      (tested .loop x next m) (tested .branch x next m) := by
  unfold tested
  cases hx : x m with
  | none =>
    have htest : ∀ construct, condition construct x m = none := fun _ => bind_none hx
    rw [bind_none (htest _), bind_none (htest _)]
    exact .none
  | some p =>
    obtain ⟨r, m'⟩ := p
    cases r with
    | error e =>
      have htest : ∀ construct, condition construct x m = some (.error e, m') :=
        fun _ => bind_error hx
      rw [bind_error (htest _), bind_error (htest _)]
      exact .some ⟨⟨rfl, rfl⟩, .inl rfl⟩
    | ok v =>
      have htest := condition_of_ok hx
      cases hv : v.asBoolean? with
      | none =>
        simp only [hv] at htest
        rw [bind_error (htest _), bind_error (htest _)]
        exact .some ⟨⟨rfl, rfl⟩, .inr ⟨v, m', rfl, hv, rfl, rfl⟩⟩
      | some holds =>
        simp only [hv] at htest
        rw [bind_ok (htest _), bind_ok (htest _)]
        cases (if holds then next else Pure.pure Value.unit) m' with
        | none => exact .none
        | some q => exact .some ⟨⟨rfl, rfl⟩, .inl rfl⟩

/-- A test and a loop end in the unit, or in an error. -/
theorem tested_value {construct : Construct} {laps spare : Nat} {x : Action Value} {v : Value}
    {m m' : Machine} (h : tested construct x (lapAndLoop laps spare test body) m =
      some (.ok v, m')) : v = .unit := by
  unfold tested at h
  obtain ⟨holds, m₁, -, h⟩ := bind_eq_some_ok_iff.1 h
  cases holds with
  | false => cases h; rfl
  | true =>
    unfold lapAndLoop loop at h
    obtain ⟨-, m₂, -, h⟩ := bind_eq_some_ok_iff.1 h
    obtain ⟨count, m₃, -, h⟩ := bind_eq_some_ok_iff.1 h
    cases h
    rfl

/-- A loop does what its first lap and the loop again do, under its condition, if that declares
nothing. Only a first condition that is no boolean is reported for another construct. -/
theorem whileLoop_unfolds (h : test.declared = []) (m : Machine) :
    ((∃ r m', (whileLoop test body).Returns m r m') ↔
      ∃ r m', (ifThen test (block [block [body], whileLoop test body])).Returns m r m') ∧
    ∀ r₁ m₁ r₂ m₂, (whileLoop test body).Returns m r₁ m₁ →
      (ifThen test (block [block [body], whileLoop test body])).Returns m r₂ m₂ →
      m₁.sink = m₂.sink ∧ m₁.scopes = m₂.scopes ∧
        ((r₁ = .ok .unit ∧ r₂ = .ok .unit) ∨
          (∃ e, r₁ = .error e ∧ r₂ = .error e) ∨
          ∃ v m₀, test.Returns m (.ok v) m₀ ∧ v.asBoolean? = none ∧
            r₁ = .error (.conditionNotBoolean .loop v.kind) ∧
            r₂ = .error (.conditionNotBoolean .branch v.kind)) := by
  have hrel := fun laps => tested_loop_rel_branch (test.evaluate laps)
    (lapAndLoop laps laps test body) m
  constructor
  · constructor
    · rintro ⟨r, ⟨s, w, j⟩, hr⟩
      obtain ⟨laps, i, hi⟩ := exists_whileLoop_returns_iff.1 ⟨j, hr⟩
      have hlaps := hrel laps
      rw [hi] at hlaps
      cases hbranch : tested .branch (test.evaluate laps) (lapAndLoop laps laps test body) m with
      | none => rw [hbranch] at hlaps; cases hlaps
      | some q =>
        obtain ⟨j', hj'⟩ := (exists_ifThen_returns_iff h).2 ⟨laps, _, hbranch⟩
        exact ⟨_, _, hj'⟩
    · rintro ⟨r, ⟨s, w, j⟩, hr⟩
      obtain ⟨laps, i, hi⟩ := (exists_ifThen_returns_iff h).1 ⟨j, hr⟩
      have hlaps := hrel laps
      rw [hi] at hlaps
      cases hloop : tested .loop (test.evaluate laps) (lapAndLoop laps laps test body) m with
      | none => rw [hloop] at hlaps; cases hlaps
      | some q =>
        obtain ⟨j', hj'⟩ := exists_whileLoop_returns_iff.2 ⟨laps, _, hloop⟩
        exact ⟨_, _, hj'⟩
  · rintro r₁ ⟨s₁, w₁, j₁⟩ r₂ ⟨s₂, w₂, j₂⟩ hr₁ hr₂
    obtain ⟨laps₁, i₁, h₁⟩ := exists_whileLoop_returns_iff.1 ⟨j₁, hr₁⟩
    obtain ⟨laps₂, i₂, h₂⟩ := (exists_ifThen_returns_iff h).1 ⟨j₂, hr₂⟩
    have hmax₁ := Nat.le_max_left laps₁ laps₂
    have hmax₂ := Nat.le_max_right laps₁ laps₂
    have hlaps := hrel (max laps₁ laps₂)
    rw [tested_extends hmax₁ hmax₁ _ _ _ _ _ h₁, tested_extends hmax₂ hmax₂ _ _ _ _ _ h₂] at hlaps
    obtain ⟨⟨hsink, hscopes⟩, heq | ⟨v, m₀, htest, hv, he₁, he₂⟩⟩ := hlaps
    · refine ⟨hsink, hscopes, ?_⟩
      obtain rfl : r₁ = r₂ := heq
      cases r₁ with
      | ok v => exact .inl ⟨by rw [tested_value h₁], by rw [tested_value h₁]⟩
      | error e => exact .inr (.inl ⟨e, rfl, rfl⟩)
    · exact ⟨hsink, hscopes, .inr (.inr ⟨v, m₀, ⟨_, htest⟩, hv, he₁, he₂⟩)⟩

/-- A loop that prints its condition twice and ends by an assignment, from a scope inside the
global one. -/
theorem whileLoop_unfolds_printing :
    let test : Node := .print (.identifier "go")
    let body : Node := .block [.var "t", .assign (.identifier "go") (.literal (.boolean false))]
    let m : Machine := ⟨⟨.empty, [Frame.empty.insert "go" (.boolean true)]⟩, .unlimited, .off⟩
    test.declared = [] ∧ ∃ m₁ m₂, (whileLoop test body).Returns m (.ok .unit) m₁ ∧
      (ifThen test (block [block [body], whileLoop test body])).Returns m (.ok .unit) m₂ ∧
      m₁.scopes = ⟨.empty, [Frame.empty.insert "go" (.boolean false)]⟩ ∧
      m₁.sink = m₂.sink ∧ m₁.scopes = m₂.scopes := by
  intro test body m
  have hloop : ∃ m₁, (whileLoop test body).Returns m (.ok .unit) m₁ ∧
      m₁.scopes = ⟨.empty, [Frame.empty.insert "go" (.boolean false)]⟩ :=
    ⟨_, ⟨2, by cbv⟩, by cbv⟩
  obtain ⟨m₁, hm₁, hscopes⟩ := hloop
  obtain ⟨hends, halike⟩ := @whileLoop_unfolds test body rfl m
  obtain ⟨r, m₂, hm₂⟩ := hends.1 ⟨_, m₁, hm₁⟩
  obtain ⟨hsink, hsame, ⟨-, rfl⟩ | ⟨e, he, -⟩ | ⟨v, m₀, -, -, he, -⟩⟩ := halike _ _ _ _ hm₁ hm₂
  · exact ⟨rfl, m₁, m₂, hm₁, hm₂, hscopes, hsink, hsame⟩
  · cases he
  · cases he

end Node

end TreeScript
