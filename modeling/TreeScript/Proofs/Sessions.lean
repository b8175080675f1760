import Mathlib
import TreeScript.Proofs.Levels
import TreeScript.Session

/-!
# What a session does to its scopes

`Step.Performs` speaks of one step of a session, however deep it is nested: the number of
scopes that steps around it have opened, the scopes that it starts from, its report, and the
scopes that it leaves. `Step.Assigns` tells of the moments at which a step assigns to a name,
itself or in the trees and steps that it runs.

Steps keep the frames but the innermost up to their assignments, as nodes do
(`Step.perform_keeps`). So the stack has one frame more for each scope around a step, and a
scope that is closed leaves all frames of before with the names that they had
(`Step.Performs.consistent`).
-/

namespace TreeScript

/-- How a step ended that is not made of steps. -/
def Report.outcome? : Report → Option Outcome
  | .plain outcome _ _ => some outcome
  | _ => none

namespace Step

/-- Induction with a hypothesis for every step inside. -/
@[elab_as_elim, induction_eliminator]
theorem induct {motive : Step → Prop}
    (declare : ∀ name, motive (.declare name))
    (define : ∀ name value, motive (.define name value))
    (get : ∀ name, motive (.get name))
    (assign : ∀ name value, motive (.assign name value))
    (run : ∀ source asProgram sink, motive (.run source asProgram sink))
    (evaluateEach : ∀ sources sink, motive (.evaluateEach sources sink))
    (within : ∀ steps, (∀ step ∈ steps, motive step) → motive (.within steps))
    (fork : ∀ steps, (∀ step ∈ steps, motive step) → motive (.fork steps)) (step : Step) :
    motive step :=
  @Step.rec motive (fun steps => ∀ step ∈ steps, motive step) declare define get assign run
    evaluateEach within fork (by simp) (fun _ _ head tail => by simpa using ⟨head, tail⟩) step

/-- Performing a step assigns to a name, and these are the scopes at the moment of the
assignment. Steps on a copy are left out. The journal of a tree does not matter. -/
inductive Assigns (laps : Nat) (journal : Journal) : Step → Scopes → String → Scopes → Prop
  | host {x : String} {v : Value} {s : Scopes} :
    (s.assign? x v).isSome → Assigns laps journal (.assign x v) s x s
  | run {source : Source} {asProgram : Bool} {sink : Sink} {root : Node} {j : Journal}
    {s u : Scopes} {x : String} : (source.load journal).1 = .ok root →
      root.Assigns laps ⟨s, sink, j⟩ x u → Assigns laps journal (.run source asProgram sink) s x u
  | evaluateEach {sources : List Source} {sink : Sink} {before after : List Node} {root : Node}
    {j : Journal} {results : List (Except RuntimeError Value)} {m : Machine} {s u : Scopes}
    {x : String} : (loadAll sources journal).1 = .ok (before ++ root :: after) →
      TreeScript.evaluateEach laps before ⟨s, sink, j⟩ = some (results, m) →
      root.Assigns laps m x u → Assigns laps journal (.evaluateEach sources sink) s x u
  | within {before after : List Step} {step : Step} {reports : List Report} {s s₁ u : Scopes}
    {x : String} : performAll laps journal before s.push = some (reports, s₁) →
      Assigns laps journal step s₁ x u →
      Assigns laps journal (.within (before ++ step :: after)) s x u

/-- In a session that starts from some scopes, inside of `k` steps that each opened a scope, a
step is performed with a report. It starts and ends with the given scopes. -/
inductive Performs (laps : Nat) (journal : Journal) :
    List Step → Scopes → Nat → Step → Scopes → Report → Scopes → Prop
  | here {before after : List Step} {step : Step} {reports : List Report} {report : Report}
    {s₀ s t : Scopes} : performAll laps journal before s₀ = some (reports, s) →
      perform laps journal step s = some (report, t) →
      Performs laps journal (before ++ step :: after) s₀ 0 step s report t
  | within {before after inner : List Step} {step : Step} {reports : List Report}
    {report : Report} {s₀ s₁ s t : Scopes} {k : Nat} :
      performAll laps journal before s₀ = some (reports, s₁) →
      Performs laps journal inner s₁.push k step s report t →
      Performs laps journal (before ++ .within inner :: after) s₀ (k + 1) step s report t
  | fork {before after inner : List Step} {step : Step} {reports : List Report}
    {report : Report} {s₀ s₁ s t : Scopes} {k : Nat} :
      performAll laps journal before s₀ = some (reports, s₁) →
      Performs laps journal inner s₁ k step s report t →
      Performs laps journal (before ++ .fork inner :: after) s₀ k step s report t

variable {laps : Nat} {journal : Journal}

/-! ## How a step ends -/

theorem of_settle {outcome : Outcome} {m : Machine} {report : Report} {t : Scopes}
    (h : settle outcome m = (report, t)) :
    report.outcome? = some outcome ∧ report.scopes = t ∧ t = m.scopes := by
  cases h
  exact ⟨rfl, rfl, rfl⟩

/-- An action of the embedding program ends in its own report or in the report of its error. -/
theorem exists_of_host {α : Type} {action : Action α} {outcome : α → Outcome} {m : Machine}
    {report : Report} {t : Scopes} (h : host action outcome m = some (report, t)) :
    ∃ r m', action m = some (r, m') ∧
      settle (match r with | .ok a => outcome a | .error e => .failed e) m' = (report, t) := by
  unfold host at h
  split at h
  · cases h
  · rename_i hrun
    exact ⟨_, _, hrun, Option.some.inj h⟩
  · rename_i hrun
    exact ⟨_, _, hrun, Option.some.inj h⟩

/-- An action of the embedding program loads nothing. -/
theorem host_report {α : Type} {action : Action α} {outcome : α → Outcome} {m : Machine}
    {report : Report} {t : Scopes} (h : host action outcome m = some (report, t))
    (houtcome : ∀ a e, outcome a ≠ .notLoaded e) :
    report.scopes = t ∧ ∀ e, report.outcome? ≠ some (.notLoaded e) := by
  obtain ⟨r, m', -, hsettle⟩ := exists_of_host h
  obtain ⟨hreport, hscopes, -⟩ := of_settle hsettle
  refine ⟨hscopes, fun e he => ?_⟩
  rw [hreport, Option.some.injEq] at he
  cases r with
  | error => cases he
  | ok a => exact houtcome a e he

/-- A tree does not load and leaves the scopes alone, or it is evaluated. -/
theorem runSource_cases {source : Source} {asProgram : Bool} {m : Machine} {report : Report}
    {t : Scopes} (h : runSource laps source asProgram m = some (report, t)) :
    (∃ e j, settle (.notLoaded e) { m with journal := j } = (report, t)) ∨
      ∃ root j r m' m'', (source.load m.journal).1 = .ok root ∧
        root.evaluate laps { m with journal := j } = some (r, m') ∧ m''.scopes = m'.scopes ∧
          settle (.ran r m''.sink.written) m'' = (report, t) := by
  unfold runSource at h
  split at h
  · exact .inl ⟨_, _, Option.some.inj h⟩
  · rename_i root j hload
    have hroot : (source.load m.journal).1 = .ok root := by rw [hload]
    cases asProgram with
    | false =>
      dsimp only at h
      split at h
      · cases h
      · rename_i hrun
        exact .inr ⟨root, j, _, _, _, hroot, hrun, rfl, Option.some.inj h⟩
    | true =>
      simp only [if_true, Node.runProgram_eq_map] at h
      split at h
      · cases h
      · rename_i hrun
        obtain ⟨⟨r, m'⟩, hevaluate, heq⟩ := Option.map_eq_some_iff.1 hrun
        cases heq
        exact .inr ⟨root, _, r, m', m'.reported r, hroot, hevaluate, rfl, Option.some.inj h⟩

/-- One of the trees does not load and the scopes are left alone, or all are evaluated. -/
theorem evaluateSources_cases {sources : List Source} {m : Machine} {report : Report}
    {t : Scopes} (h : evaluateSources laps sources m = some (report, t)) :
    (∃ e j, settle (.notLoaded e) { m with journal := j } = (report, t)) ∨
      ∃ roots j results m', (loadAll sources m.journal).1 = .ok roots ∧
        TreeScript.evaluateEach laps roots { m with journal := j } = some (results, m') ∧
          settle (.evaluated results m'.sink.written) m' = (report, t) := by
  unfold evaluateSources at h
  split at h
  · exact .inl ⟨_, _, Option.some.inj h⟩
  · rename_i roots j hload
    split at h
    · cases h
    · rename_i hrun
      exact .inr ⟨roots, j, _, _, by rw [hload], hrun, Option.some.inj h⟩

/-! ## Trees in turn -/

/-- Trees that are evaluated in turn keep the frames up to the assignments of each. -/
theorem evaluateEach_keeps : ∀ {roots : List Node} {m m' : Machine}
    {results : List (Except RuntimeError Value)},
    TreeScript.evaluateEach laps roots m = some (results, m') →
      m.scopes.Keeps (fun x u => ∃ before root after results₁ m₁,
        roots = before ++ root :: after ∧
          TreeScript.evaluateEach laps before m = some (results₁, m₁) ∧
          root.Assigns laps m₁ x u) m'.scopes
  | [], m, m', results, h => by
    cases h
    exact .refl _
  | root :: roots, m, m', results, h => by
    unfold TreeScript.evaluateEach at h
    cases hroot : root.evaluate laps m with
    | none => simp [hroot] at h
    | some p =>
      obtain ⟨r, m₁⟩ := p
      simp only [hroot] at h
      cases hroots : TreeScript.evaluateEach laps roots m₁ with
      | none => simp [hroots] at h
      | some q =>
        obtain ⟨rs, m₂⟩ := q
        simp only [hroots] at h
        cases h
        refine ((root.keeps laps _ _ _ hroot).mono ?_).trans
          ((evaluateEach_keeps hroots).mono ?_)
        · exact fun x u hu => ⟨[], root, roots, [], m, rfl, rfl, hu⟩
        · rintro x u ⟨before, root', after, results₁, m₃, rfl, hbefore, hu⟩
          refine ⟨root :: before, root', after, r :: results₁, m₃, rfl, ?_, hu⟩
          simp only [TreeScript.evaluateEach, hroot, hbefore]

/-! ## Steps -/

/-- Steps in turn keep the frames up to the assignments of each. -/
theorem performAll_keeps : ∀ {steps : List Step} {s t : Scopes} {reports : List Report},
    (∀ step ∈ steps, ∀ s report t, perform laps journal step s = some (report, t) →
      s.Keeps (step.Assigns laps journal s) t) →
    performAll laps journal steps s = some (reports, t) →
      s.Keeps (fun x u => ∃ before step after reports₁ s₁, steps = before ++ step :: after ∧
        performAll laps journal before s = some (reports₁, s₁) ∧
          step.Assigns laps journal s₁ x u) t
  | [], s, t, reports, _, h => by
    cases h
    exact .refl _
  | step :: steps, s, t, reports, hsteps, h => by
    unfold performAll at h
    cases hstep : perform laps journal step s with
    | none => simp [hstep] at h
    | some p =>
      obtain ⟨report, s₁⟩ := p
      simp only [hstep] at h
      cases hrest : performAll laps journal steps s₁ with
      | none => simp [hrest] at h
      | some q =>
        obtain ⟨reports', s₂⟩ := q
        simp only [hrest] at h
        cases h
        rw [List.forall_mem_cons] at hsteps
        refine ((hsteps.1 _ _ _ hstep).mono ?_).trans ((performAll_keeps hsteps.2 hrest).mono ?_)
        · exact fun x u hu => ⟨[], step, steps, [], s, rfl, rfl, hu⟩
        · rintro x u ⟨before, step', after, reports₁, s₃, rfl, hbefore, hu⟩
          refine ⟨step :: before, step', after, report :: reports₁, s₃, rfl, ?_, hu⟩
          simp only [performAll, hstep, hbefore]

/-- A step keeps the frames but the innermost up to its assignments. -/
theorem perform_keeps (step : Step) : ∀ s report t, perform laps journal step s = some (report, t) →
    s.Keeps (step.Assigns laps journal s) t := by
  induction step with
  | declare name =>
    intro s report t h
    rw [perform] at h
    obtain ⟨r, m, hrun, hsettle⟩ := exists_of_host h
    obtain ⟨-, -, rfl⟩ := of_settle hsettle
    cases hrun
    exact .define s name .unit
  | define name value =>
    intro s report t h
    rw [perform] at h
    obtain ⟨r, m, hrun, hsettle⟩ := exists_of_host h
    obtain ⟨-, -, rfl⟩ := of_settle hsettle
    cases hrun
    exact .define s name value
  | get name =>
    intro s report t h
    rw [perform] at h
    obtain ⟨r, m, hrun, hsettle⟩ := exists_of_host h
    obtain ⟨-, -, rfl⟩ := of_settle hsettle
    rw [Action.scopes_get hrun]
    exact .refl s
  | assign name value =>
    intro s report t h
    rw [perform] at h
    obtain ⟨r, m, hrun, hsettle⟩ := exists_of_host h
    obtain ⟨-, -, rfl⟩ := of_settle hsettle
    rcases Action.assign_cases hrun with ⟨-, hs⟩ | ⟨-, hs⟩
    · exact .assign hs (.host (by rw [hs]; rfl))
    · rw [hs]
      exact .refl s
  | run source asProgram sink =>
    intro s report t h
    rw [perform] at h
    rcases runSource_cases h with ⟨e, j, hsettle⟩ | ⟨root, j, r, m, m', hload, hrun, hm, hsettle⟩
    · obtain ⟨-, -, rfl⟩ := of_settle hsettle
      exact .refl _
    · obtain ⟨-, -, rfl⟩ := of_settle hsettle
      rw [hm]
      exact (root.keeps laps _ _ _ hrun).mono fun x u hu => .run hload hu
  | evaluateEach sources sink =>
    intro s report t h
    rw [perform] at h
    rcases evaluateSources_cases h with
      ⟨e, j, hsettle⟩ | ⟨roots, j, results, m, hload, hrun, hsettle⟩
    · obtain ⟨-, -, rfl⟩ := of_settle hsettle
      exact .refl _
    · obtain ⟨-, -, rfl⟩ := of_settle hsettle
      refine (evaluateEach_keeps hrun).mono ?_
      rintro x u ⟨before, root, after, results₁, m₁, rfl, hbefore, hu⟩
      exact .evaluateEach hload hbefore hu
  | within steps ih =>
    intro s report t h
    simp only [perform] at h
    split at h
    · cases h
    · rename_i hrun
      cases h
      refine Scopes.Keeps.scope ((performAll_keeps ih hrun).mono ?_)
      rintro x u ⟨before, step, after, reports₁, s₁, rfl, hbefore, hu⟩
      exact .within hbefore hu
  | fork steps _ =>
    intro s report t h
    simp only [perform] at h
    split at h
    · cases h
    · cases h
      exact .refl s

/-- A report has the scopes that are left, and those of before if a tree did not load. -/
theorem perform_report {step : Step} {s t : Scopes} {report : Report}
    (h : perform laps journal step s = some (report, t)) :
    report.scopes = t ∧ ∀ e, report.outcome? = some (.notLoaded e) → t = s := by
  have hhost : (report.scopes = t ∧ ∀ e, report.outcome? ≠ some (.notLoaded e)) →
      report.scopes = t ∧ ∀ e, report.outcome? = some (.notLoaded e) → t = s :=
    fun ⟨hscopes, hloads⟩ => ⟨hscopes, fun e he => absurd he (hloads e)⟩
  cases step with
  | declare | define | get | assign =>
    rw [perform] at h
    exact hhost (host_report h nofun)
  | run source asProgram sink =>
    rw [perform] at h
    rcases runSource_cases h with ⟨e, j, hsettle⟩ | ⟨root, j, r, m, m', -, -, -, hsettle⟩
    · obtain ⟨-, hscopes, ht⟩ := of_settle hsettle
      exact ⟨hscopes, fun _ _ => ht⟩
    · obtain ⟨hreport, hscopes, -⟩ := of_settle hsettle
      exact hhost ⟨hscopes, fun e => by rw [hreport]; nofun⟩
  | evaluateEach sources sink =>
    rw [perform] at h
    rcases evaluateSources_cases h with ⟨e, j, hsettle⟩ | ⟨roots, j, results, m, -, -, hsettle⟩
    · obtain ⟨-, hscopes, ht⟩ := of_settle hsettle
      exact ⟨hscopes, fun _ _ => ht⟩
    · obtain ⟨hreport, hscopes, -⟩ := of_settle hsettle
      exact hhost ⟨hscopes, fun e => by rw [hreport]; nofun⟩
  | within steps =>
    rw [perform] at h
    split at h
    · cases h
    · cases h
      exact hhost ⟨rfl, nofun⟩
  | fork steps =>
    rw [perform] at h
    split at h
    · cases h
    · cases h
      exact hhost ⟨rfl, nofun⟩

/-- A lookup of the embedding program leaves the scopes alone. -/
theorem perform_get {x : String} {s t : Scopes} {report : Report}
    (h : perform laps journal (.get x) s = some (report, t)) : t = s := by
  rw [perform] at h
  obtain ⟨r, m, hrun, hsettle⟩ := exists_of_host h
  exact (of_settle hsettle).2.2.trans (Action.scopes_get hrun)

/-- So does an assignment that fails. -/
theorem perform_assign_failed {x : String} {v : Value} {s t : Scopes} {report : Report}
    {e : RuntimeError} (h : perform laps journal (.assign x v) s = some (report, t))
    (he : report.outcome? = some (.failed e)) : t = s := by
  rw [perform] at h
  obtain ⟨r, m, hrun, hsettle⟩ := exists_of_host h
  obtain ⟨hreport, -, ht⟩ := of_settle hsettle
  rcases Action.assign_cases hrun with ⟨rfl, -⟩ | ⟨-, hs⟩
  · rw [hreport] at he
    cases he
  · exact ht.trans hs

/-! ## Sessions -/

/-- A step inside of others starts from a stack with one frame more for each scope around it. -/
theorem Performs.start {steps : List Step} {s₀ s t : Scopes} {k : Nat} {step : Step}
    {report : Report} (h : Performs laps journal steps s₀ k step s report t) :
    perform laps journal step s = some (report, t) ∧ s.depth = s₀.depth + k := by
  have hdepth : ∀ {before : List Step} {reports : List Report} {s₀ s : Scopes},
      performAll laps journal before s₀ = some (reports, s) → s.depth = s₀.depth :=
    fun h => (performAll_keeps (fun step _ => perform_keeps step) h).depth
  induction h with
  | here hbefore hstep => exact ⟨hstep, hdepth hbefore⟩
  | within hbefore _ ih =>
    have hbefore := hdepth hbefore
    obtain ⟨hstep, hstart⟩ := ih
    rw [Scopes.depth_push] at hstart
    exact ⟨hstep, by omega⟩
  | fork hbefore _ ih =>
    have hbefore := hdepth hbefore
    obtain ⟨hstep, hstart⟩ := ih
    exact ⟨hstep, by omega⟩

/-- After every step of a session the depth is one more than the number of scopes around the
step. When steps in a scope of their own are over, each frame of before binds the names that it
did, and has a new value only from one of these steps that assigned to the name at a moment when
no frame above bound it. A lookup, an assignment that fails, and a step whose tree does not load
leave every frame as it was. -/
theorem Performs.consistent {steps : List Step} {s t : Scopes} {k : Nat} {step : Step}
    {report : Report} (h : Performs laps journal steps .initial k step s report t) :
    report.scopes = t ∧ t.depth = 1 + k ∧
      (∀ inner, step = .within inner → t.depth = s.depth ∧ ∀ level x, level < s.depth →
        ((t.boundAt level x).isSome ↔ (s.boundAt level x).isSome) ∧
          (t.boundAt level x ≠ s.boundAt level x →
            ∃ u, step.Assigns laps journal s x u ∧ ∀ l, level < l → u.boundAt l x = none)) ∧
      (∀ x, step = .get x → t = s) ∧
      (∀ x v e, step = .assign x v → report.outcome? = some (.failed e) → t = s) ∧
      ∀ e, report.outcome? = some (.notLoaded e) → t = s := by
  obtain ⟨hstep, hstart⟩ := h.start
  have hstart : s.depth = 1 + k := hstart
  obtain ⟨hscopes, hloads⟩ := perform_report hstep
  refine ⟨hscopes, (perform_keeps step s report t hstep).depth.trans hstart, ?_, ?_, ?_, hloads⟩
  · rintro inner rfl
    rw [perform] at hstep
    split at hstep
    · cases hstep
    · rename_i hinner
      cases hstep
      refine Scopes.Keeps.enclosing
        ((performAll_keeps (fun step _ => perform_keeps step) hinner).mono ?_)
      rintro x u ⟨before, step, after, reports₁, s₁, rfl, hbefore, hu⟩
      exact .within hbefore hu
  · rintro x rfl
    exact perform_get hstep
  · rintro x v e rfl he
    exact perform_assign_failed hstep he

/-- Two scopes deep, a name is assigned that is bound in the scope around, and a program assigns
to a global before it fails to print. -/
theorem Performs.consistent_failing_print :
    let root : Node := .block [.assign (.identifier "y") (.literal (.string "new")),
      .print (.identifier "y")]
    let inner : List Step := [.assign "x" (.string "inner"),
      .run (.tree root) true (.limited 0 .refuses), .assign "z" .unit]
    let steps : List Step := [.define "x" (.boolean true), .define "y" (.boolean true),
      .within [.declare "x", .within inner]]
    let globals : Frame := (Frame.empty.insert "x" (.boolean true)).insert "y" (.boolean true)
    let s : Scopes := ⟨Frame.empty.insert "x" .unit, [globals]⟩
    let t : Scopes := ⟨Frame.empty.insert "x" (.string "inner"),
      [globals.insert "y" (.string "new")]⟩
    ∃ report, Performs 0 .off steps .initial 1 (.within inner) s report t ∧ t.depth = 2 ∧
      (∃ u, (Step.within inner).Assigns 0 .off s "y" u ∧ ∀ l, 0 < l → u.boundAt l "y" = none) ∧
      ∃ u, (Step.within inner).Assigns 0 .off s "x" u ∧ ∀ l, 1 < l → u.boundAt l "x" = none := by
  intro root inner steps globals s t
  have hbefore : performAll 0 .off [.define "x" (.boolean true), .define "y" (.boolean true)]
      .initial = some ([.plain .done ⟨Frame.empty.insert "x" (.boolean true), []⟩ [],
        .plain .done ⟨globals, []⟩ []], ⟨globals, []⟩) := by cbv
  have hdeclare : performAll 0 .off [.declare "x"] (Scopes.push ⟨globals, []⟩) =
      some ([.plain .done s []], s) := by cbv
  have hinner : perform 0 .off (.within inner) s = some (.within [] [
      .plain .done ⟨.empty, t.innermost :: s.enclosing⟩ [],
      .plain (.ran (.error (.outputFailed "sink full")) .empty) ⟨.empty, t.frames⟩ [],
      .plain (.failed (.undefinedVariable "z")) ⟨.empty, t.frames⟩ []] t [], t) := by
    simp only [inner, root, s, t, globals]
    cbv
  have hperforms : Performs 0 .off steps .initial 1 (.within inner) s _ t :=
    @Performs.within _ _ _ [] [.declare "x", .within inner] _ _ _ _ _ _ _ _ hbefore
      (@Performs.here _ _ _ [] _ _ _ _ _ _ hdeclare hinner)
  obtain ⟨-, hdepth, hwithin, -⟩ := Performs.consistent hperforms
  obtain ⟨-, hlevels⟩ := hwithin inner rfl
  refine ⟨_, hperforms, hdepth, (hlevels 0 "y" (by decide)).2 ?_, (hlevels 1 "x" (by decide)).2 ?_⟩
  · decide
  · decide

end Step

end TreeScript
