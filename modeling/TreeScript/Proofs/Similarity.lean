import Mathlib.Data.List.Forall2
import TreeScript.Proofs.Number.Similar
import TreeScript.Proofs.Slots

/-!
# Trees and scopes up to the sign of zero

Values are similar if they are similar numbers or the same, trees if they have one shape and
similar literals, and stacks of scopes if they are so frame by frame. Similar values have one
kind and one truth value, they equal similar values, and their texts differ at most as those of
the two zeros do (`Value.Similar.text`). A lookup in similar scopes finds similar values, and an
assignment leaves similar scopes (`Scopes.Similar.get?`, `Scopes.Similar.assign?`).
-/

namespace TreeScript

/-! ## Values and trees -/

/-- Similar numbers, or one and the same value of another kind. -/
inductive Value.Similar : Value → Value → Prop where
  | number {x y : Float} : Number.Similar x y → Value.Similar (.number x) (.number y)
  | boolean (b : Bool) : Value.Similar (.boolean b) (.boolean b)
  | string (s : String) : Value.Similar (.string s) (.string s)
  | unit : Value.Similar .unit .unit

/-- Trees of one shape, with similar literals. -/
inductive Node.Similar : Node → Node → Prop where
  | literal {v v' : Value} : v.Similar v' → Similar (.literal v) (.literal v')
  | print {n n' : Node} : Similar n n' → Similar (.print n) (.print n')
  | binary {op : Operator} {l l' r r' : Node} :
    Similar l l' → Similar r r' → Similar (.binary op l r) (.binary op l' r')
  | ifThen {t t' b b' : Node} : Similar t t' → Similar b b' → Similar (.ifThen t b) (.ifThen t' b')
  | ifElse {t t' b b' e e' : Node} :
    Similar t t' → Similar b b' → Similar e e' → Similar (.ifElse t b e) (.ifElse t' b' e')
  | whileLoop {t t' b b' : Node} :
    Similar t t' → Similar b b' → Similar (.whileLoop t b) (.whileLoop t' b')
  | block {ns ns' : List Node} : List.Forall₂ Similar ns ns' → Similar (.block ns) (.block ns')
  | var (x : String) : Similar (.var x) (.var x)
  | identifier (x : String) : Similar (.identifier x) (.identifier x)
  | assign {t t' n n' : Node} : Similar t t' → Similar n n' → Similar (.assign t n) (.assign t' n')
  | inspect {n n' : Node} : Similar n n' → Similar (.inspect n) (.inspect n')

namespace Value.Similar

variable {v v' w w' : Value}

theorem kind_eq (h : v.Similar v') : v.kind = v'.kind := by
  cases h <;> rfl

theorem asBoolean?_eq (h : v.Similar v') : v.asBoolean? = v'.asBoolean? := by
  cases h <;> rfl

theorem equal_eq (hv : v.Similar v') (hw : w.Similar w') : v.equal w = v'.equal w' := by
  cases hv with
  | number hx =>
    cases hw with
    | number hy => exact hx.beq_eq hy
    | boolean | string | unit => rfl
  | boolean | string | unit => cases hw <;> rfl

/-- Similar values have one text, unless they are the two zeros. -/
theorem text (h : v.Similar v') : v.text = v'.text ∨
    v.equal (.number 0) = true ∧ v'.equal (.number 0) = true ∧
      (v.text = "0" ∧ v'.text = "-0" ∨ v.text = "-0" ∧ v'.text = "0") := by
  cases h with
  | number hx => exact hx.text
  | boolean | string | unit => exact .inl rfl

end Value.Similar

theorem Node.Similar.kind_eq {n n' : Node} (h : n.Similar n') : n.kind = n'.kind := by
  cases h <;> rfl

/-! ## Scopes -/

/-- The same names, with similar values. -/
def Frame.Similar (f g : Frame) : Prop :=
  ∀ x, Option.Rel Value.Similar (f.get? x) (g.get? x)

/-- Frames that are similar one by one. -/
def Scopes.Similar (s t : Scopes) : Prop :=
  List.Forall₂ Frame.Similar s.frames t.frames

namespace Frame.Similar

variable {f g : Frame}

theorem insert (h : f.Similar g) (name : String) {v w : Value} (hv : v.Similar w) :
    (f.insert name v).Similar (g.insert name w) := by
  intro x
  rw [get?_insert, get?_insert]
  split
  · exact .some hv
  · exact h x

theorem binds_eq (h : f.Similar g) (name : String) : f.binds name = g.binds name := by
  have hrel := h name
  unfold binds
  generalize f.get? name = a, g.get? name = b at hrel
  cases hrel <;> rfl

end Frame.Similar

namespace Scopes

variable {s t : Scopes}

theorem rebind?_similar (name : String) {v w : Value} (hv : v.Similar w) {fs gs : List Frame}
    (h : List.Forall₂ Frame.Similar fs gs) :
    Option.Rel (List.Forall₂ Frame.Similar) (rebind? name v fs) (rebind? name w gs) := by
  induction h with
  | nil => exact .none
  | @cons f g fs gs hf hfs ih =>
    have hbinds := hf.binds_eq name
    cases hb : f.binds name with
    | true =>
      rw [rebind?_cons_of_binds hb, rebind?_cons_of_binds (hbinds ▸ hb)]
      exact .some (.cons (hf.insert name hv) hfs)
    | false =>
      rw [rebind?_cons_of_not_binds hb, rebind?_cons_of_not_binds (hbinds ▸ hb)]
      generalize rebind? name v fs = a, rebind? name w gs = b at ih
      cases ih with
      | none => exact .none
      | some h => exact .some (.cons hf h)

namespace Similar

theorem push (h : s.Similar t) : s.push.Similar t.push :=
  .cons (fun _ => .none) h

theorem pop (h : s.Similar t) : s.pop.Similar t.pop := by
  obtain ⟨f, fs⟩ := s
  obtain ⟨g, gs⟩ := t
  cases h with
  | cons hf hfs =>
    cases hfs with
    | nil => exact .cons hf .nil
    | cons hg hgs => exact .cons hg hgs

theorem define (h : s.Similar t) (name : String) {v w : Value} (hv : v.Similar w) :
    (s.define name v).Similar (t.define name w) := by
  cases h with
  | cons hf hfs => exact .cons (hf.insert name hv) hfs

theorem get? (h : s.Similar t) (name : String) :
    Option.Rel Value.Similar (s.get? name) (t.get? name) := by
  have hframes : List.Forall₂ Frame.Similar s.frames t.frames := h
  unfold Scopes.get?
  generalize s.frames = fs, t.frames = gs at hframes
  induction hframes with
  | nil => exact .none
  | @cons f g _ _ hf _ ih =>
    rw [List.findSome?_cons, List.findSome?_cons]
    have hrel := hf name
    generalize f.get? name = a, g.get? name = b at hrel
    cases hrel with
    | none => exact ih
    | some hv => exact .some hv

theorem assign? (h : s.Similar t) (name : String) {v w : Value} (hv : v.Similar w) :
    Option.Rel Similar (s.assign? name v) (t.assign? name w) := by
  have hrel := rebind?_similar name hv h
  rw [← frames_assign?, ← frames_assign?] at hrel
  generalize s.assign? name v = a, t.assign? name w = b at hrel
  cases a with
  | none =>
    cases b with
    | none => exact .none
    | some _ => cases hrel
  | some _ =>
    cases b with
    | none => cases hrel
    | some _ =>
      cases hrel with
      | some h => exact .some h

end Similar

end Scopes

end TreeScript
