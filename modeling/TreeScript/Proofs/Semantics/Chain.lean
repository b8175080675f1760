import Mathlib.Logic.Function.Basic
import TreeScript.Proofs.Slots

/-!
# Linked scopes

A `Chain` is a scope with a reference to the scope around it, down to the globals. A
scope is any assignment of values to names. Lookups and assignments go from scope to
scope outwards, and a declaration stays in the innermost scope.

`Scopes.chain` links the frames of a stack. Each operation on chains is the image of
the operation on stacks, and no two stacks have the same chain
(`Scopes.chain_injective`).
-/

namespace TreeScript

/-- A scope that knows the scope around it. -/
inductive Chain where
  | global (vars : String → Option Value)
  | inner (vars : String → Option Value) (parent : Chain)

namespace Chain

/-- Searches the innermost scope, then the scopes around it. -/
def lookup : Chain → String → Option Value
  | .global vars, x => vars x
  | .inner vars parent, x =>
    match vars x with
    | some value => some value
    | none => parent.lookup x

/-- Binds a name to the unit in the innermost scope. -/
def declare : Chain → String → Chain
  | .global vars, x => .global (Function.update vars x (some .unit))
  | .inner vars parent, x => .inner (Function.update vars x (some .unit)) parent

/-- Binds a name anew in the scope where a search finds it. -/
def rebind : Chain → String → Value → Option Chain
  | .global vars, x, value =>
    match vars x with
    | some _ => some (.global (Function.update vars x (some value)))
    | none => none
  | .inner vars parent, x, value =>
    match vars x with
    | some _ => some (.inner (Function.update vars x (some value)) parent)
    | none => (parent.rebind x value).map (.inner vars)

/-- A new scope without names, inside the others. -/
def enter (c : Chain) : Chain :=
  .inner (fun _ => none) c

end Chain

namespace Scopes

/-- The chain of a frame and the frames around it. -/
def linked (f : Frame) : List Frame → Chain
  | [] => .global f.get?
  | g :: frames => .inner f.get? (linked g frames)

/-- The frames of a stack as linked scopes. -/
def chain (s : Scopes) : Chain :=
  linked s.innermost s.enclosing

theorem chain_pop {s : Scopes} {vars : String → Option Value} {parent : Chain}
    (h : s.chain = .inner vars parent) : s.pop.chain = parent := by
  obtain ⟨f, frames⟩ := s
  cases frames with
  | nil => cases h
  | cons g frames => exact (Chain.inner.inj h).2

/-- A stack of more than one frame has a chain with a parent. -/
theorem exists_chain_eq_inner {s : Scopes} (h : 2 ≤ s.depth) :
    ∃ vars, s.chain = .inner vars s.pop.chain := by
  obtain ⟨f, frames⟩ := s
  cases frames with
  | nil => simp [depth, Scopes.frames] at h
  | cons g frames => exact ⟨_, rfl⟩

theorem get?_insert_eq_update (f : Frame) (name : String) (value : Value) :
    (f.insert name value).get? = Function.update f.get? name (some value) := by
  funext x
  rw [Frame.get?_insert, Function.update_apply]

theorem chain_declare (s : Scopes) (name : String) :
    (s.declare name).chain = s.chain.declare name := by
  obtain ⟨f, frames⟩ := s
  cases frames <;> simp [chain, linked, declare, define, Chain.declare, get?_insert_eq_update]

theorem lookup_linked (name : String) : ∀ (f : Frame) (frames : List Frame),
    (linked f frames).lookup name = (f :: frames).findSome? (·.get? name)
  | f, [] => by
    rw [List.findSome?_cons]
    cases h : f.get? name <;> simp [linked, Chain.lookup, h]
  | f, g :: frames => by
    rw [List.findSome?_cons, ← lookup_linked name g frames]
    cases h : f.get? name <;> simp [linked, Chain.lookup, h]

theorem lookup_chain (s : Scopes) (name : String) : s.chain.lookup name = s.get? name :=
  lookup_linked name s.innermost s.enclosing

theorem chain_cons (f : Frame) (s : Scopes) :
    (⟨f, s.frames⟩ : Scopes).chain = .inner f.get? s.chain :=
  rfl

theorem rebind_linked (name : String) (value : Value) : ∀ (f : Frame) (frames : List Frame),
    (linked f frames).rebind name value =
      ((⟨f, frames⟩ : Scopes).assign? name value).map chain
  | f, [] => by
    unfold assign?
    cases h : f.get? name with
    | none => simp [linked, Chain.rebind, Frame.binds, h, rebind?]
    | some v =>
      simp [linked, Chain.rebind, Frame.binds, h, chain, define, get?_insert_eq_update]
  | f, g :: frames => by
    show (Chain.inner f.get? (linked g frames)).rebind name value =
      ((⟨f, (⟨g, frames⟩ : Scopes).frames⟩ : Scopes).assign? name value).map chain
    rw [assign?_cons]
    cases h : f.get? name with
    | none =>
      simp only [Chain.rebind, h, rebind_linked name value g frames, Frame.binds,
        Option.isSome_none, Bool.false_eq_true, ↓reduceIte, Option.map_map]
      rfl
    | some v =>
      simp only [Chain.rebind, h, Frame.binds, Option.isSome_some, ↓reduceIte, Option.map_some,
        chain_cons, get?_insert_eq_update]
      rfl

theorem rebind_chain (s : Scopes) (name : String) (value : Value) :
    s.chain.rebind name value = (s.assign? name value).map chain :=
  rebind_linked name value s.innermost s.enclosing

theorem get?_injective {f g : Frame} (h : f.get? = g.get?) : f = g :=
  Frame.ext_get? (congrFun h)

theorem linked_injective : ∀ {f g : Frame} {fs gs : List Frame},
    linked f fs = linked g gs → f = g ∧ fs = gs
  | f, g, [], [], h => ⟨get?_injective (Chain.global.inj h), rfl⟩
  | f, g, [], _ :: _, h => by cases h
  | f, g, _ :: _, [], h => by cases h
  | f, g, f' :: fs, g' :: gs, h => by
    obtain ⟨hvars, hparent⟩ := Chain.inner.inj h
    obtain ⟨rfl, rfl⟩ := linked_injective hparent
    exact ⟨get?_injective hvars, rfl⟩

/-- Stacks with the same chain are equal. -/
theorem chain_injective {s t : Scopes} (h : s.chain = t.chain) : s = t := by
  obtain ⟨f, fs⟩ := s
  obtain ⟨g, gs⟩ := t
  obtain ⟨rfl, rfl⟩ := linked_injective h
  rfl

end Scopes

end TreeScript
