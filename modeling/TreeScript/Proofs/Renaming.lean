import Mathlib
import TreeScript.Proofs.Lockstep
import TreeScript.Proofs.Slots

/-!
# Renaming

A map of names renames a tree, the frames of a stack of scopes, and the name that an error
speaks of. If no two names are mapped to one, each operation on scopes commutes with the
renaming: a lookup or an assignment of the new name finds the frame in which the old name
is bound. So a tree and its renaming run alongside each other (`Node.evaluate_rename`), and
`Node.returns_rename` says what this comes to.
-/

namespace TreeScript

/-! ## Scopes -/

namespace Frame

/-- The same values under other names. -/
def rename (ρ : String → String) (f : Frame) : Frame :=
  f.bindings.foldr (fun p g => g.insert (ρ p.1) p.2) empty

variable {ρ : String → String}

/-- The new name is bound where the old one was. -/
theorem get?_rename (hρ : ρ.Injective) (f : Frame) (x : String) :
    (f.rename ρ).get? (ρ x) = f.get? x := by
  unfold rename
  show _ = f.bindings.lookup x
  induction f.bindings with
  | nil => rfl
  | cons p rest ih => simp only [List.foldr_cons, get?_insert, hρ.eq_iff, lookup_cons_eq_ite, ih]

/-- No name is bound but the new ones. -/
theorem get?_rename_of_forall_ne {y : String} (h : ∀ x, y ≠ ρ x) (f : Frame) :
    (f.rename ρ).get? y = none := by
  unfold rename
  induction f.bindings with
  | nil => rfl
  | cons p rest ih => rw [List.foldr_cons, get?_insert, if_neg (h p.1), ih]

theorem binds_rename (hρ : ρ.Injective) (f : Frame) (x : String) :
    (f.rename ρ).binds (ρ x) = f.binds x := by
  rw [binds, get?_rename hρ, binds]

theorem rename_insert (hρ : ρ.Injective) (f : Frame) (x : String) (value : Value) :
    (f.insert x value).rename ρ = (f.rename ρ).insert (ρ x) value := by
  refine ext_get? fun y => ?_
  by_cases hy : ∃ z, y = ρ z
  · obtain ⟨z, rfl⟩ := hy
    rw [get?_rename hρ, get?_insert, get?_insert, get?_rename hρ]
    simp only [hρ.eq_iff]
  · rw [not_exists] at hy
    rw [get?_rename_of_forall_ne hy, get?_insert, if_neg (hy x), get?_rename_of_forall_ne hy]

end Frame

namespace Scopes

/-- Every frame renamed. -/
def rename (ρ : String → String) (s : Scopes) : Scopes :=
  ⟨s.innermost.rename ρ, s.enclosing.map (·.rename ρ)⟩

variable {ρ : String → String}

@[simp] theorem rename_push (s : Scopes) : s.push.rename ρ = (s.rename ρ).push :=
  rfl

@[simp] theorem rename_pop (s : Scopes) : s.pop.rename ρ = (s.rename ρ).pop := by
  obtain ⟨innermost, enclosing⟩ := s
  cases enclosing <;> rfl

theorem rename_define (hρ : ρ.Injective) (s : Scopes) (x : String) (value : Value) :
    (s.define x value).rename ρ = (s.rename ρ).define (ρ x) value := by
  unfold define rename
  rw [Frame.rename_insert hρ]

theorem get?_rename (hρ : ρ.Injective) (s : Scopes) (x : String) :
    (s.rename ρ).get? (ρ x) = s.get? x := by
  show (s.frames.map (·.rename ρ)).findSome? _ = _
  simp only [List.findSome?_map, Function.comp_def, Frame.get?_rename hρ, get?]

/-- A name is rebound in the same frame, and nowhere if it was bound nowhere. -/
theorem rebind?_rename (hρ : ρ.Injective) (x : String) (value : Value) : ∀ frames : List Frame,
    rebind? (ρ x) value (frames.map (·.rename ρ)) =
      (rebind? x value frames).map (List.map (·.rename ρ))
  | [] => rfl
  | f :: frames => by
    have ih := rebind?_rename hρ x value frames
    cases hb : f.binds x with
    | true =>
      have hb' := (Frame.binds_rename hρ f x).trans hb
      rw [List.map_cons, rebind?_cons_of_binds hb', rebind?_cons_of_binds hb, Option.map_some,
        List.map_cons, Frame.rename_insert hρ]
    | false =>
      have hb' := (Frame.binds_rename hρ f x).trans hb
      rw [List.map_cons, rebind?_cons_of_not_binds hb', rebind?_cons_of_not_binds hb, ih,
        Option.map_map, Option.map_map]
      rfl

theorem assign?_rename (hρ : ρ.Injective) (s : Scopes) (x : String) (value : Value) :
    (s.rename ρ).assign? (ρ x) value = (s.assign? x value).map (rename ρ) := by
  have hb : (s.rename ρ).innermost.binds (ρ x) = s.innermost.binds x :=
    Frame.binds_rename hρ s.innermost x
  have hrebind := rebind?_rename hρ x value s.enclosing
  unfold assign?
  rw [hb]
  split
  · rw [Option.map_some, rename_define hρ]
  · show (rebind? (ρ x) value (s.enclosing.map (·.rename ρ))).map _ = _
    rw [hrebind, Option.map_map, Option.map_map]
    rfl

end Scopes

/-! ## Errors and trees -/

/-- Only an undefined variable speaks of a name. -/
def RuntimeError.rename (ρ : String → String) : RuntimeError → RuntimeError
  | .undefinedVariable x => .undefinedVariable (ρ x)
  | e => e

theorem RuntimeError.kind_rename (ρ : String → String) (e : RuntimeError) :
    (e.rename ρ).kind = e.kind := by
  cases e <;> rfl

theorem RuntimeError.rename_of_kind_ne {e : RuntimeError} (he : e.kind ≠ .undefinedVariable)
    (ρ : String → String) : e.rename ρ = e := by
  cases e with
  | undefinedVariable => exact absurd rfl he
  | _ => rfl

namespace Node

mutual

/-- A tree with its names replaced, in declarations, in uses and in targets. -/
def rename (ρ : String → String) : Node → Node
  | .literal v => .literal v
  | .print n => .print (rename ρ n)
  | .binary op l r => .binary op (rename ρ l) (rename ρ r)
  | .ifThen t b => .ifThen (rename ρ t) (rename ρ b)
  | .ifElse t b e => .ifElse (rename ρ t) (rename ρ b) (rename ρ e)
  | .whileLoop t b => .whileLoop (rename ρ t) (rename ρ b)
  | .block ns => .block (renameAll ρ ns)
  | .var x => .var (ρ x)
  | .identifier x => .identifier (ρ x)
  | .assign t n => .assign (rename ρ t) (rename ρ n)
  | .inspect n => .inspect (rename ρ n)

def renameAll (ρ : String → String) : List Node → List Node
  | [] => []
  | n :: ns => rename ρ n :: renameAll ρ ns

end

theorem renameAll_eq_map (ρ : String → String) (ns : List Node) :
    renameAll ρ ns = ns.map (rename ρ) := by
  induction ns with
  | nil => rfl
  | cons n ns ih => rw [renameAll, ih, List.map_cons]

end Node

/-! ## Runs -/

/-- The second machine has the scopes of the first under other names, and the same sink. -/
structure Machine.Renamed (ρ : String → String) (m m' : Machine) : Prop where
  scopes : m'.scopes = m.scopes.rename ρ
  sink : m'.sink = m.sink

namespace Action

variable {α : Type} {ρ : String → String}

/-- The second action does to the renamed scopes what the first does to the scopes. -/
def Renames (ρ : String → String) (x y : Action α) : Prop :=
  Alongside (RuntimeError.rename ρ) (Machine.Renamed ρ) x y

theorem congruence_renames (ρ : String → String) : Congruence (Renames ρ) :=
  congruence_alongside (fun _ _ _ h => ⟨h.scopes, h.sink⟩)
    fun _ he => RuntimeError.rename_of_kind_ne he ρ

theorem Renames.inScope {x y : Action α} (h : Renames ρ x y) :
    Renames ρ (inScope x) (inScope y) := by
  refine Alongside.inScope h (fun m m' hm => ⟨?_, hm.sink⟩) fun m m' hm => ⟨?_, hm.sink⟩
  · show m'.scopes.push = m.scopes.push.rename ρ
    rw [hm.scopes, Scopes.rename_push]
  · show m'.scopes.pop = m.scopes.pop.rename ρ
    rw [hm.scopes, Scopes.rename_pop]

/-- Records may speak of different names. -/
theorem renames_note (r r' : Record) : Renames ρ (note r) (note r') :=
  fun _ _ h => .some ⟨rfl, h.scopes, h.sink⟩

/-- An error and its renaming. -/
theorem renames_fail (e : RuntimeError) :
    Renames ρ (fail e : Action α) (fail (e.rename ρ)) :=
  fun _ _ h => .some ⟨rfl, h.scopes, h.sink⟩

theorem renames_print (value : Value) : Renames ρ (print value) (print value) := by
  intro m m' hm
  unfold print
  rw [hm.sink]
  split
  · exact .some ⟨rfl, hm.scopes, rfl⟩
  · exact .some ⟨rfl, hm.scopes, rfl⟩

variable (hρ : ρ.Injective)

include hρ

theorem renames_declare (x : String) : Renames ρ (declare x) (declare (ρ x)) := by
  intro m m' hm
  refine .some ⟨rfl, ?_, hm.sink⟩
  show m'.scopes.define (ρ x) .unit = (m.scopes.define x .unit).rename ρ
  rw [hm.scopes, Scopes.rename_define hρ]

theorem renames_get (x : String) : Renames ρ (get x) (get (ρ x)) := by
  intro m m' hm
  unfold get
  rw [hm.scopes, Scopes.get?_rename hρ]
  cases m.scopes.get? x with
  | none => exact renames_fail (.undefinedVariable x) m m' hm
  | some value => exact .some ⟨rfl, hm⟩

theorem renames_assign (x : String) (value : Value) :
    Renames ρ (assign x value) (assign (ρ x) value) := by
  intro m m' hm
  unfold assign
  rw [hm.scopes, Scopes.assign?_rename hρ]
  cases m.scopes.assign? x value with
  | none => exact renames_fail (.undefinedVariable x) m m' hm
  | some scopes => exact .some ⟨rfl, rfl, hm.sink⟩

theorem renames_assignTo (target : Node) (value : Value) :
    Renames ρ (assignTo target value) (assignTo (target.rename ρ) value) := by
  have hP := congruence_renames ρ
  cases target with
  | identifier x =>
    exact hP.bind (renames_assign hρ x value) fun _ =>
      hP.bind (renames_note _ _) fun _ => hP.pure value
  | _ => exact renames_fail (.invalidTarget _)

end Action

namespace Node

open TreeScript.Action

/-- The evaluation of a tree and that of its renaming. -/
theorem evaluate_rename {ρ : String → String} (hρ : ρ.Injective) (laps : Nat) (n : Node) :
    Renames ρ (n.evaluate laps) ((n.rename ρ).evaluate laps) := by
  have hP := congruence_renames ρ
  induction n with
  | literal v =>
    rw [rename, evaluate]
    exact hP.visiting _ (hP.pure v)
  | print n ih =>
    rw [rename, evaluate, evaluate]
    exact hP.visiting _ (hP.bind ih fun value => hP.bind (renames_print value) fun _ =>
      hP.bind (hP.note _ rfl) fun _ => hP.pure value)
  | binary op l r ihl ihr =>
    rw [rename, evaluate, evaluate]
    exact hP.visiting _ (hP.binary op ihl ihr)
  | ifThen t b iht ihb =>
    rw [rename, evaluate, evaluate]
    refine hP.visiting _ (hP.bind (hP.condition _ iht) fun holds => ?_)
    cases holds with
    | false => exact hP.pure _
    | true => exact hP.bind (hP.note _ rfl) fun _ => ihb.inScope
  | ifElse t b e iht ihb ihe =>
    rw [rename, evaluate, evaluate]
    refine hP.visiting _ (hP.bind (hP.condition _ iht) fun holds => ?_)
    cases holds with
    | false => exact hP.bind (hP.note _ rfl) fun _ => ihe.inScope
    | true => exact hP.bind (hP.note _ rfl) fun _ => ihb.inScope
  | whileLoop t b iht ihb =>
    rw [rename, evaluate, evaluate]
    have hlap := Renames.inScope (hP.bind ihb fun _ => hP.pure ())
    exact hP.visiting _ (hP.bind (hP.repeatWhile (hP.condition _ iht) hlap laps 0) fun _ =>
      hP.bind (hP.note _ rfl) fun _ => hP.pure _)
  | block ns ih =>
    rw [rename, renameAll_eq_map, evaluate, evaluate]
    exact hP.visiting _ (hP.bind (renames_note _ _) fun _ =>
      Renames.inScope (hP.evaluateAll (rename ρ) ns .unit ih))
  | var x =>
    rw [rename, evaluate, evaluate]
    exact hP.visiting _ (hP.bind (renames_declare hρ x) fun _ =>
      hP.bind (renames_note _ _) fun _ => hP.pure _)
  | identifier x =>
    rw [rename, evaluate, evaluate]
    exact hP.visiting _ (renames_get hρ x)
  | assign t n _ ihn =>
    rw [rename, evaluate, evaluate]
    exact hP.visiting _ (hP.bind ihn fun value => renames_assignTo hρ t value)
  | inspect n ih =>
    rw [rename, evaluate, evaluate]
    exact hP.visiting _ ih

/-- A tree and its renaming return alike: one does if the other does, in the same value or
in an error that differs at most in the name of an undefined variable, with the same output
and with the renamed scopes. -/
theorem returns_rename {ρ : String → String} (hρ : ρ.Injective) (n : Node) {m m' : Machine}
    (hscopes : m'.scopes = m.scopes.rename ρ) (hsink : m'.sink = m.sink) :
    ((∃ r m₁, n.Returns m r m₁) ↔ ∃ r' m₁', (n.rename ρ).Returns m' r' m₁') ∧
      ∀ r m₁ r' m₁', n.Returns m r m₁ → (n.rename ρ).Returns m' r' m₁' →
        (∀ v, r = .ok v → r' = .ok v) ∧
        (∀ e, r = .error e → r' = .error (e.rename ρ) ∧ (e.rename ρ).kind = e.kind ∧
          ((e.rename ρ).message = e.message ∨
            ∃ x, e = .undefinedVariable x ∧ e.rename ρ = .undefinedVariable (ρ x))) ∧
        m₁'.sink = m₁.sink ∧ m₁'.scopes = m₁.scopes.rename ρ := by
  have hm : Machine.Renamed ρ m m' := ⟨hscopes, hsink⟩
  have hforth {r : Except RuntimeError Value} {m₁ : Machine} (h : n.Returns m r m₁) :
      ∃ m₁', (n.rename ρ).Returns m' (r.mapError (·.rename ρ)) m₁' ∧ m₁.Renamed ρ m₁' := by
    obtain ⟨laps, hrun⟩ := h
    obtain ⟨m₁', hrun', hm₁⟩ := (evaluate_rename hρ laps n).exists_some hm hrun
    exact ⟨m₁', ⟨laps, hrun'⟩, hm₁⟩
  refine ⟨⟨?_, ?_⟩, fun r m₁ r' m₁' h h' => ?_⟩
  · rintro ⟨r, m₁, h⟩
    obtain ⟨m₁', h', -⟩ := hforth h
    exact ⟨_, m₁', h'⟩
  · rintro ⟨r', m₁', laps, hrun'⟩
    obtain ⟨⟨r, m₁⟩, hrun⟩ := (evaluate_rename hρ laps n).exists_some_left hm hrun'
    exact ⟨r, m₁, laps, hrun⟩
  · obtain ⟨m₂, h₂, hm₂⟩ := hforth h
    obtain ⟨rfl, rfl⟩ := h'.unique h₂
    refine ⟨?_, ?_, hm₂.sink, hm₂.scopes⟩
    · rintro v rfl
      rfl
    · rintro e rfl
      refine ⟨rfl, e.kind_rename ρ, ?_⟩
      cases e with
      | undefinedVariable x => exact .inr ⟨x, rfl, rfl⟩
      | _ => exact .inl rfl

/-- The two names are exchanged, so the bindings of a frame change places. -/
theorem returns_rename_swap :
    let ρ : String → String := Equiv.swap "x" "y"
    let n : Node := .block [.var "x", .assign (.identifier "x") (.literal (.string "a")),
      .assign (.identifier "z") (.identifier "x"), .print (.identifier "z"), .identifier "y"]
    let m : Machine := ⟨⟨Frame.empty.insert "z" .unit, []⟩, .unlimited, .off⟩
    ρ.Injective ∧ ∃ m₁ m₁', n.Returns m (.error (.undefinedVariable "y")) m₁ ∧
      (n.rename ρ).Returns { m with scopes := m.scopes.rename ρ }
        (.error (.undefinedVariable "x")) m₁' ∧
      m₁'.sink = m₁.sink ∧ m₁'.scopes = m₁.scopes.rename ρ := by
  intro ρ n m
  have hρ : ρ.Injective := (Equiv.swap "x" "y").injective
  have h : (Node.block [.var "x", .assign (.identifier "x") (.literal (.string "a")),
      .assign (.identifier "z") (.identifier "x"), .print (.identifier "z"),
      .identifier "y"]).Returns ⟨⟨Frame.empty.insert "z" .unit, []⟩, .unlimited, .off⟩
      (.error (.undefinedVariable "y"))
      ⟨⟨Frame.empty.insert "z" (.string "a"), []⟩, ⟨"a\n".toUTF8, none, .refuses⟩, .off⟩ :=
    ⟨0, by cbv⟩
  obtain ⟨hiff, halike⟩ :=
    @returns_rename ρ hρ n m { m with scopes := m.scopes.rename ρ } rfl rfl
  obtain ⟨r', m₁', h'⟩ := hiff.1 ⟨_, _, h⟩
  obtain ⟨-, herror, hsink, hnames⟩ := halike _ _ _ _ h h'
  obtain ⟨rfl, -⟩ := herror _ rfl
  exact ⟨hρ, _, m₁', h, by simpa [ρ, RuntimeError.rename] using h', hsink, hnames⟩

end Node

end TreeScript
