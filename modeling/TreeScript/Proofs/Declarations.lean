import TreeScript.Proofs.Discipline
import TreeScript.Proofs.Semantics.Rules

/-!
# Declared before used

`Node.Declares D n D'` checks that a tree declares its names before it uses them: where
the names of `D` can be looked up, every name that the tree reads or assigns can, and
after it those of `D'` can. What a branch, a body or a block declares is not counted
after it, and neither is what the right operand of a connective declares, which may not
be evaluated.

`Node.Declares.no_undefined` is what the check is for. It rests on two facts about every
action that evaluation is built of. A name that can be looked up stays so, since no frame
comes or goes and no frame loses a name (`Scopes.Grows`). And an action that only looks up
what it can meets no undefined variable (`Action.Safe`).
-/

namespace TreeScript

mutual

/-- Where the names of the first set are declared, a tree uses declared names only, and
those of the second set are declared after it. -/
inductive Node.Declares : Set String → Node → Set String → Prop where
  | literal {D : Set String} (v : Value) : Declares D (.literal v) D
  | print {D D' : Set String} {n : Node} : Declares D n D' → Declares D (.print n) D'
  | strict {D D₁ D' : Set String} {op : Operator} {l r : Node} : Strict op →
    Declares D l D₁ → Declares D₁ r D' → Declares D (.binary op l r) D'
  | connective {D D₁ D₂ : Set String} {op : Connective} {l r : Node} :
    Declares D l D₁ → Declares D₁ r D₂ → Declares D (.binary (.connective op) l r) D₁
  | ifThen {D D₁ D₂ : Set String} {t b : Node} :
    Declares D t D₁ → Declares D₁ b D₂ → Declares D (.ifThen t b) D₁
  | ifElse {D D₁ D₂ D₃ : Set String} {t b e : Node} :
    Declares D t D₁ → Declares D₁ b D₂ → Declares D₁ e D₃ → Declares D (.ifElse t b e) D₁
  | whileLoop {D D₁ D₂ : Set String} {t b : Node} :
    Declares D t D₁ → Declares D₁ b D₂ → Declares D (.whileLoop t b) D₁
  | block {D D' : Set String} {ns : List Node} : DeclaresAll D ns D' → Declares D (.block ns) D
  | var {D : Set String} (x : String) : Declares D (.var x) (insert x D)
  | identifier {D : Set String} {x : String} : x ∈ D → Declares D (.identifier x) D
  | assign {D D₁ : Set String} {t n : Node} : Declares D n D₁ →
    (∀ x, t = .identifier x → x ∈ D₁) → Declares D (.assign t n) D₁
  | inspect {D D' : Set String} {n : Node} : Declares D n D' → Declares D (.inspect n) D'

/-- Nodes in sequence, each after those before it. -/
inductive Node.DeclaresAll : Set String → List Node → Set String → Prop where
  | nil {D : Set String} : DeclaresAll D [] D
  | cons {D D₁ D' : Set String} {n : Node} {ns : List Node} :
    Declares D n D₁ → DeclaresAll D₁ ns D' → DeclaresAll D (n :: ns) D'

end

/-! ## Names in sight -/

namespace Scopes

/-- Every name of a set can be looked up. -/
def Sees (s : Scopes) (D : Set String) : Prop :=
  ∀ x ∈ D, (s.get? x).isSome

/-- No frame comes or goes, and none loses a name. -/
structure Grows (s t : Scopes) : Prop where
  depth : t.depth = s.depth
  full : ∀ i x, (s.slot i x).isSome → (t.slot i x).isSome

variable {s t u : Scopes} {D D' : Set String}

theorem Sees.mono (h : s.Sees D) (hD : D' ⊆ D) : s.Sees D' :=
  fun x hx => h x (hD hx)

theorem Sees.union (h : s.Sees D) (h' : s.Sees D') : s.Sees (D ∪ D') :=
  fun x hx => hx.elim (h x) (h' x)

/-- A name can be looked up if some frame has it. -/
theorem isSome_get?_iff (s : Scopes) (x : String) :
    (s.get? x).isSome ↔ ∃ i, (s.slot i x).isSome := by
  simp only [get?, List.findSome?_isSome_iff, List.mem_iff_getElem?, slot]
  constructor
  · rintro ⟨f, ⟨i, hi⟩, hf⟩
    exact ⟨i, by rwa [hi]⟩
  · rintro ⟨i, hi⟩
    cases hf : s.frames[i]? with
    | none => simp [hf] at hi
    | some f => exact ⟨f, ⟨i, hf⟩, by simpa [hf] using hi⟩

theorem Grows.refl (s : Scopes) : Grows s s :=
  ⟨rfl, fun _ _ h => h⟩

theorem Grows.trans (h : Grows s t) (h' : Grows t u) : Grows s u :=
  ⟨h'.depth.trans h.depth, fun i x hx => h'.full i x (h.full i x hx)⟩

theorem Within.grows {declared assigned : List String} (h : Within declared assigned s t) :
    Grows s t :=
  ⟨h.depth, fun _ _ => h.isSome⟩

/-- What a scope that is opened and closed has done to the frames below it. -/
theorem Grows.scope (h : Grows s.push t) : Grows s t.pop := by
  have hdepth : t.depth = s.depth + 1 := h.depth
  have htwo : 2 ≤ t.depth := by have := s.one_le_depth; omega
  refine ⟨?_, fun i x hx => ?_⟩
  · have := depth_pop htwo
    omega
  · rw [slot_pop htwo]
    exact h.full (i + 1) x hx

theorem Grows.sees (h : Grows s t) (hs : s.Sees D) : t.Sees D := by
  intro x hx
  obtain ⟨i, hi⟩ := (isSome_get?_iff s x).1 (hs x hx)
  exact (isSome_get?_iff t x).2 ⟨i, h.full i x hi⟩

end Scopes

/-! ## Actions that look up what is in sight -/

namespace Action

open Scopes

variable {α β : Type} {D D₁ D₂ D' : Set String}

/-- Where the names of the first set are in sight, an action loses none, meets no undefined
variable, and if it ends well the names of the second set are in sight. -/
def Safe (D D' : Set String) (x : Action α) : Prop :=
  ∀ m r m', m.scopes.Sees D → x m = some (r, m') → Grows m.scopes m'.scopes ∧
    (∀ e, r = .error e → e.kind ≠ .undefinedVariable) ∧ ∀ a, r = .ok a → m'.scopes.Sees D'

namespace Safe

theorem mono {x : Action α} (h : Safe D₁ D₂ x) (hD : D₁ ⊆ D) (hD' : D' ⊆ D₂) : Safe D D' x := by
  intro m r m' hm hrun
  obtain ⟨hgrows, herror, hok⟩ := h m r m' (hm.mono hD) hrun
  exact ⟨hgrows, herror, fun a ha => (hok a ha).mono hD'⟩

/-- The names that were in sight still are. -/
theorem union {x : Action α} (h : Safe D D' x) : Safe D (D ∪ D') x := by
  intro m r m' hm hrun
  obtain ⟨hgrows, herror, hok⟩ := h m r m' hm hrun
  exact ⟨hgrows, herror, fun a ha => (hgrows.sees hm).union (hok a ha)⟩

theorem still {x : Action α} (h : Safe D D' x) : Safe D D x :=
  h.union.mono subset_rfl Set.subset_union_left

theorem bind {x : Action α} {f : α → Action β} (hx : Safe D D₁ x)
    (hf : ∀ a, Safe D₁ D' (f a)) : Safe D D' (x >>= f) := by
  intro m r m' hm hrun
  rcases bind_eq_some_iff.1 hrun with ⟨e, h₁, rfl⟩ | ⟨a, m₁, h₁, h₂⟩
  · obtain ⟨hgrows, herror, -⟩ := hx m _ m' hm h₁
    exact ⟨hgrows, fun e' he' => herror e' (by cases he'; rfl), fun a ha => by cases ha⟩
  · obtain ⟨hgrows, -, hok⟩ := hx m _ m₁ hm h₁
    obtain ⟨hgrows', herror, hok'⟩ := hf a m₁ r m' (hok a rfl) h₂
    exact ⟨hgrows.trans hgrows', herror, hok'⟩

/-- What is declared in a scope of its own is not in sight after it. -/
theorem inScope {x : Action α} (h : Safe D D' x) : Safe D D (inScope x) := by
  intro m r m' hm hrun
  obtain ⟨m₁, h₁, rfl⟩ := inScope_eq_some_iff.1 hrun
  obtain ⟨hgrows, herror, -⟩ := h m.opened r m₁ hm h₁
  have hgrows' : Grows m.scopes m₁.closed.scopes := hgrows.scope
  exact ⟨hgrows', herror, fun _ _ => hgrows'.sees hm⟩

/-- An action that leaves the scopes alone and raises no undefined variable. -/
theorem of_scopes_eq {x : Action α} (h : ∀ m r m', x m = some (r, m') →
    m'.scopes = m.scopes ∧ ∀ e, r = .error e → e.kind ≠ .undefinedVariable) : Safe D D x := by
  intro m r m' hm hrun
  obtain ⟨hscopes, herror⟩ := h m r m' hrun
  rw [hscopes]
  exact ⟨.refl _, herror, fun _ _ => hm⟩

theorem note (r : Record) : Safe D D (note r) :=
  of_scopes_eq fun _ _ _ h => by cases h; exact ⟨rfl, nofun⟩

theorem fail {e : RuntimeError} (he : e.kind ≠ .undefinedVariable) :
    Safe D D (fail e : Action α) :=
  of_scopes_eq fun _ _ _ h => by cases h; exact ⟨rfl, fun _ h => by cases h; exact he⟩

theorem print (value : Value) : Safe D D (print value) := by
  refine of_scopes_eq fun m r m' h => ?_
  unfold Action.print at h
  split at h
  · cases h
    exact ⟨rfl, nofun⟩
  · cases h
    exact ⟨rfl, fun _ h => by cases h; exact nofun⟩

theorem declare (name : String) : Safe D (insert name D) (declare name) := by
  intro m r m' hm hrun
  cases hrun
  have hwithin : Within [name] [] m.scopes (m.scopes.define name .unit) :=
    Within.define m.scopes .unit (List.mem_singleton_self name)
  refine ⟨hwithin.grows, nofun, fun _ _ x hx => ?_⟩
  show ((m.scopes.define name .unit).get? x).isSome
  rw [get?_define]
  split
  · rfl
  · rename_i hne
    exact hm x (hx.resolve_left hne)

theorem get {name : String} (hname : name ∈ D) : Safe D D (get name) := by
  intro m r m' hm hrun
  obtain ⟨v, hv⟩ := Option.isSome_iff_exists.1 (hm name hname)
  unfold Action.get at hrun
  rw [hv] at hrun
  cases hrun
  exact ⟨.refl _, nofun, fun _ _ => hm⟩

theorem assign {name : String} (hname : name ∈ D) (value : Value) :
    Safe D D (assign name value) := by
  intro m r m' hm hrun
  unfold Action.assign at hrun
  cases hs : m.scopes.assign? name value with
  | none =>
    have hnone := hm name hname
    rw [assign?_eq_none_iff.1 hs] at hnone
    cases hnone
  | some t =>
    simp only [hs] at hrun
    cases hrun
    have hgrows : Grows m.scopes t :=
      (Within.assign (D := []) hs (List.mem_singleton_self name)).grows
    exact ⟨hgrows, nofun, fun _ _ => hgrows.sees hm⟩

end Safe

theorem congruence_safe (D : Set String) : Congruence fun x _ => Safe D D x where
  pure _ := .of_scopes_eq fun _ _ _ h => by cases h; exact ⟨rfl, nofun⟩
  bind := Safe.bind
  note r _ := .note r
  fail _ := .fail
  cutOff _ _ _ _ h := by cases h

namespace Safe

theorem pure (a : α) : Safe D D (Pure.pure a : Action α) :=
  (congruence_safe D).pure a

theorem visiting {x : Action Value} (kind : Node.Kind) (h : Safe D D' x) :
    Safe D D' (visiting kind x) :=
  (note _).bind fun _ => h.bind fun value => (note (.nodeLeft kind value)).bind fun _ => .pure _

theorem condition {x : Action Value} (construct : Construct) (h : Safe D D' x) :
    Safe D D' (condition construct x) :=
  h.bind fun _ => (congruence_safe D').ofOption (by simp [RuntimeError.kind]) _

/-- Both operands are evaluated, and the right one sees what the left one declares. -/
theorem binary {op : Operator} (hop : Strict op) {x y : Action Value} (hx : Safe D D₁ x)
    (hy : Safe D₁ D' y) : Safe D D' (binary op x y) := by
  have hP := congruence_safe D'
  refine (note _).bind fun _ => hx.bind fun a => ?_
  cases op with
  | arithmetic op => exact hy.bind fun b => hP.arithmetic op a b
  | comparison op => exact hy.bind fun b => hP.comparison op a b
  | equal => exact hy.bind fun b => .pure _
  | notEqual => exact hy.bind fun b => .pure _
  | connective op => exact absurd rfl (hop op)

/-- The right operand may not be evaluated, so what it declares is not counted. -/
theorem connective {op : Connective} {x y : Action Value} (hx : Safe D D₁ x)
    (hy : Safe D₁ D₂ y) : Safe D D₁ (Action.binary (.connective op) x y) := by
  have operand (value : Value) : Safe D₁ D₁ (booleanOperand op value) :=
    (congruence_safe D₁).booleanOperand op value
  refine (note _).bind fun _ => hx.bind fun a => (operand a).bind fun a => ?_
  split
  · exact (note _).bind fun _ => .pure _
  · exact hy.still.bind fun b => (operand b).bind fun _ => .pure _

/-- The condition is tested again where it was tested before and the body has run, and
there the names that it needs are still in sight. -/
theorem repeatWhile {c : Action Bool} {b : Action Unit} (hc : Safe D D₁ c)
    (hb : Safe D₁ D₁ b) : ∀ laps count, Safe D D₁ (repeatWhile c b laps count)
  | 0, _ => fun _ _ _ _ h => by cases h
  | laps + 1, count => by
    rw [repeatWhile_succ]
    refine hc.union.bind fun holds => ?_
    cases holds with
    | false => exact (pure count).mono subset_rfl Set.subset_union_right
    | true =>
      have hb' : Safe (D ∪ D₁) (D ∪ D₁) b := (hb.mono Set.subset_union_right subset_rfl).still
      exact hb'.bind fun _ =>
        (repeatWhile hc hb laps (count + 1)).mono Set.subset_union_left subset_rfl

theorem assignTo {target : Node} (h : ∀ x, target = .identifier x → x ∈ D) (value : Value) :
    Safe D D (assignTo target value) := by
  unfold Action.assignTo
  split
  · exact (assign (h _ rfl) value).bind fun _ => (note _).bind fun _ => .pure _
  · exact .fail nofun

end Safe

end Action

/-! ## Trees -/

namespace Node

open TreeScript.Action

variable {D D' : Set String}

mutual

/-- A tree that passes the check is evaluated as the check says. -/
theorem Declares.safe (laps : Nat) : ∀ {D D' : Set String} {n : Node},
    n.Declares D D' → Safe D D' (n.evaluate laps)
  | _, _, _, .literal v => by
    rw [evaluate]
    exact (Safe.pure v).visiting _
  | _, _, _, .print h => by
    rw [evaluate]
    exact ((h.safe laps).bind fun value => (Safe.print value).bind fun _ =>
      (Safe.note _).bind fun _ => .pure _).visiting _
  | _, _, _, .strict hop hl hr => by
    rw [evaluate]
    exact (Safe.binary hop (hl.safe laps) (hr.safe laps)).visiting _
  | _, _, _, .connective hl hr => by
    rw [evaluate]
    exact (Safe.connective (hl.safe laps) (hr.safe laps)).visiting _
  | _, _, _, .ifThen ht hb => by
    rw [evaluate]
    refine (((ht.safe laps).condition _).bind fun holds => ?_).visiting _
    cases holds with
    | false => exact .pure _
    | true => exact (Safe.note _).bind fun _ => (hb.safe laps).inScope
  | _, _, _, .ifElse ht hb he => by
    rw [evaluate]
    refine (((ht.safe laps).condition _).bind fun holds => ?_).visiting _
    cases holds with
    | false => exact (Safe.note _).bind fun _ => (he.safe laps).inScope
    | true => exact (Safe.note _).bind fun _ => (hb.safe laps).inScope
  | _, _, _, .whileLoop ht hb => by
    rw [evaluate]
    have hlap := ((hb.safe laps).bind fun _ => Safe.pure ()).inScope
    exact ((Safe.repeatWhile ((ht.safe laps).condition _) hlap laps 0).bind fun _ =>
      (Safe.note _).bind fun _ => .pure _).visiting _
  | _, _, _, .block h => by
    rw [evaluate]
    exact ((Safe.note _).bind fun _ => (h.safe laps .unit).inScope).visiting _
  | _, _, _, .var x => by
    rw [evaluate]
    exact ((Safe.declare x).bind fun _ => (Safe.note _).bind fun _ => .pure _).visiting _
  | _, _, _, .identifier hx => by
    rw [evaluate]
    exact (Safe.get hx).visiting _
  | _, _, _, .assign h ht => by
    rw [evaluate]
    exact ((h.safe laps).bind fun value => Safe.assignTo ht value).visiting _
  | _, _, _, .inspect h => by
    rw [evaluate]
    exact (h.safe laps).visiting _

theorem DeclaresAll.safe (laps : Nat) : ∀ {D D' : Set String} {ns : List Node},
    DeclaresAll D ns D' → ∀ last, Safe D D' (evaluateAll laps last ns)
  | _, _, _, .nil, last => by
    rw [evaluateAll]
    exact Safe.pure last
  | _, _, _, .cons h hs, last => by
    rw [evaluateAll]
    exact (h.safe laps).bind fun value => hs.safe laps value

end

/-- A tree that declares its names before it uses them meets no undefined variable, and
if it returns a value the names that it is said to declare can be looked up. -/
theorem Declares.no_undefined {n : Node} (h : n.Declares D D') {m m' : Machine}
    {r : Except RuntimeError Value} (hm : ∀ x ∈ D, (m.scopes.get? x).isSome)
    (hr : n.Returns m r m') : (∀ e, r = .error e → e.kind ≠ .undefinedVariable) ∧
      ∀ v, r = .ok v → ∀ x ∈ D', (m'.scopes.get? x).isSome := by
  obtain ⟨laps, hrun⟩ := hr
  obtain ⟨-, herror, hok⟩ := h.safe laps m r m' hm hrun
  exact ⟨herror, hok⟩

/-- The condition of a loop declares the name that the condition and the body read. -/
theorem Declares.no_undefined_loop :
    let n : Node := .whileLoop
      (.binary (.connective .and) (.binary .equal (.var "x") (.literal .unit)) (.identifier "y"))
      (.assign (.identifier "y") (.binary .notEqual (.identifier "x") (.literal .unit)))
    let m : Machine := ⟨⟨Frame.empty.insert "y" (.boolean true), []⟩, .unlimited, .off⟩
    let m' : Machine :=
      ⟨⟨(Frame.empty.insert "y" (.boolean false)).insert "x" .unit, []⟩, .unlimited, .off⟩
    n.Declares {"y"} {"x", "y"} ∧ n.Returns m (.ok .unit) m' ∧
      ∀ x ∈ ({"x", "y"} : Set String), (m'.scopes.get? x).isSome := by
  have hn : (Node.whileLoop
      (.binary (.connective .and) (.binary .equal (.var "x") (.literal .unit)) (.identifier "y"))
      (.assign (.identifier "y") (.binary .notEqual (.identifier "x") (.literal .unit)))).Declares
      {"y"} {"x", "y"} :=
    .whileLoop
      (.connective (.strict nofun (.var "x") (.literal .unit)) (.identifier (by simp)))
      (.assign (.strict nofun (.identifier (by simp)) (.literal .unit))
        fun x hx => by cases hx; simp)
  have hr : (Node.whileLoop
      (.binary (.connective .and) (.binary .equal (.var "x") (.literal .unit)) (.identifier "y"))
      (.assign (.identifier "y") (.binary .notEqual (.identifier "x") (.literal .unit)))).Returns
      ⟨⟨Frame.empty.insert "y" (.boolean true), []⟩, .unlimited, .off⟩ (.ok .unit)
      ⟨⟨(Frame.empty.insert "y" (.boolean false)).insert "x" .unit, []⟩, .unlimited, .off⟩ :=
    ⟨2, by cbv⟩
  have hm : ∀ x ∈ ({"y"} : Set String), (Scopes.get?
      ⟨Frame.empty.insert "y" (.boolean true), []⟩ x).isSome := by
    rintro x rfl
    simp [Scopes.get?, Scopes.frames]
  exact ⟨hn, hr, (Declares.no_undefined hn hm hr).2 _ rfl⟩

end Node

end TreeScript
