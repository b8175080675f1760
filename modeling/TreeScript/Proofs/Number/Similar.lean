import TreeScript.Evaluation
import TreeScript.Proofs.Number.Parts

/-!
# Numbers up to the sign of zero

Two numbers are `Similar` if they are the same, or both zeros, or both not numbers. In the
parts that arithmetic works on, these are the same parts or two zeros (`Similar.unpack`).
So comparisons do not tell similar operands apart (`Similar.beq_eq`, `Similar.holds_eq`), and
arithmetic makes similar results of them (`Similar.apply`). The one operation that would tell
the zeros apart is division by them. Their texts do so as well (`Similar.text`).
-/

open Float.Model

namespace TreeScript.Number

/-- The same bits, or two zeros, or two that are not numbers. -/
inductive Similar (x y : Float) : Prop where
  | bits : x.toBits = y.toBits → Similar x y
  | zeros : x = 0.0 ∨ x = -0.0 → y = 0.0 ∨ y = -0.0 → Similar x y
  | notNumbers : x.isNaN = true → y.isNaN = true → Similar x y

/-! ## Parts -/

/-- The same parts, or two zeros. -/
inductive Resembles : UnpackedFloat → UnpackedFloat → Prop where
  | refl (u : UnpackedFloat) : Resembles u u
  | zeros (s s' : UnpackedFloat.Sign) : Resembles (.zero s) (.zero s')

namespace Resembles

variable {u u' v v' : UnpackedFloat} {f : Format}

theorem trans {w : UnpackedFloat} (h : Resembles u v) (h' : Resembles v w) : Resembles u w := by
  cases h with
  | refl => exact h'
  | zeros s s' =>
    cases h' with
    | refl => exact .zeros s s'
    | zeros _ t => exact .zeros s t

/-- It is enough to exchange one operand at a time. -/
theorem map₂ {op : UnpackedFloat → UnpackedFloat → UnpackedFloat}
    (hleft : ∀ s s' v, Resembles (op (.zero s) v) (op (.zero s') v))
    (hright : ∀ u s s', Resembles (op u (.zero s)) (op u (.zero s')))
    (hu : Resembles u u') (hv : Resembles v v') : Resembles (op u v) (op u' v') := by
  have hu : Resembles (op u v) (op u' v) := by
    cases hu with
    | refl => exact .refl _
    | zeros s s' => exact hleft s s' v
  refine hu.trans ?_
  cases hv with
  | refl => exact .refl _
  | zeros s s' => exact hright u' s s'

theorem add : Resembles u u' → Resembles v v' → Resembles (u.add f v) (u'.add f v') := by
  refine map₂ (fun s s' v => ?_) fun u s s' => ?_
  · cases v with
    | zero t => cases s <;> cases s' <;> cases t <;> exact .zeros _ _
    | notANumber | infinity | finite => exact .refl _
  · cases u with
    | zero t => cases s <;> cases s' <;> cases t <;> exact .zeros _ _
    | notANumber | infinity | finite => exact .refl _

theorem sub : Resembles u u' → Resembles v v' → Resembles (u.sub f v) (u'.sub f v') := by
  refine map₂ (fun s s' v => ?_) fun u s s' => ?_
  · cases v with
    | zero t => cases s <;> cases s' <;> cases t <;> exact .zeros _ _
    | notANumber | infinity | finite => exact .refl _
  · cases u with
    | zero t => cases s <;> cases s' <;> cases t <;> exact .zeros _ _
    | notANumber | infinity | finite => exact .refl _

theorem mul : Resembles u u' → Resembles v v' → Resembles (u.mul f v) (u'.mul f v') := by
  refine map₂ (fun s s' v => ?_) fun u s s' => ?_
  · cases v with
    | zero | finite => exact .zeros _ _
    | notANumber | infinity => exact .refl _
  · cases u with
    | zero | finite => exact .zeros _ _
    | notANumber | infinity => exact .refl _

/-- A quotient with a divisor other than zero. -/
theorem div (hu : Resembles u u') (hv : Resembles v v') (hne : ∀ s, v ≠ .zero s) :
    Resembles (u.div f v) (u'.div f v') := by
  cases hv with
  | zeros s s' => exact absurd rfl (hne s)
  | refl =>
    cases hu with
    | refl => exact .refl _
    | zeros s s' =>
      cases v with
      | infinity | finite => exact .zeros _ _
      | notANumber | zero => exact .refl _

/-- The order does not see the sign of zero. -/
theorem compare_eq (hu : Resembles u u') (hv : Resembles v v') : u.compare v = u'.compare v' := by
  have hleft : u.compare v = u'.compare v := by
    cases hu with
    | refl => rfl
    | zeros s s' =>
      cases v with
      | infinity t | finite t => cases t <;> rfl
      | notANumber | zero => rfl
  refine hleft.trans ?_
  cases hv with
  | refl => rfl
  | zeros s s' =>
    cases u' with
    | infinity t | finite t => cases t <;> rfl
    | notANumber | zero => rfl

end Resembles

/-! ## Numbers -/

variable {x y x' y' : Float}

/-- The numbers that unpack to zero are those that compare equal to it. -/
theorem unpack_eq_zero_iff_eq : (∃ s, x.toModel.unpack = .zero s) ↔ x = 0.0 ∨ x = -0.0 := by
  rw [← beq_zero_iff, ← compare_zero_iff _ .positive]
  exact beq_iff_eq.symm

theorem unpack_of_isNaN (h : x.isNaN = true) : x.toModel.unpack = .notANumber := by
  change x.toModel.unpack.isNaN = true at h
  generalize x.toModel.unpack = u at h
  cases u with
  | notANumber => rfl
  | infinity | zero | finite => cases h

/-- The order is that of the parts. -/
theorem decide_lt_eq (x y : Float) :
    decide (x < y) = (x.toModel.unpack.compare y.toModel.unpack == some .lt) :=
  (Bool.decide_coe (x.lt y)).trans (Bool.decide_coe (x.toModel.lt y.toModel))

namespace Similar

theorem refl (x : Float) : Similar x x :=
  .bits rfl

/-- There is one number that is none, so similar numbers differ in the sign of zero only. -/
theorem eq_or_zeros (h : Similar x y) :
    x = y ∨ (x = 0.0 ∨ x = -0.0) ∧ (y = 0.0 ∨ y = -0.0) := by
  cases h with
  | bits h => exact .inl (eq_of_toBits_eq h)
  | zeros hx hy => exact .inr ⟨hx, hy⟩
  | notNumbers hx hy =>
    exact .inl (eq_of_unpack_eq ((unpack_of_isNaN hx).trans (unpack_of_isNaN hy).symm))

theorem unpack (h : Similar x y) : Resembles x.toModel.unpack y.toModel.unpack := by
  rcases h.eq_or_zeros with rfl | ⟨hx, hy⟩
  · exact .refl _
  · obtain ⟨s, hs⟩ := unpack_eq_zero_iff_eq.2 hx
    obtain ⟨s', hs'⟩ := unpack_eq_zero_iff_eq.2 hy
    rw [hs, hs']
    exact .zeros s s'

theorem pack {u u' : UnpackedFloat} (h : Resembles u u') :
    Similar (.ofModel (.pack u)) (.ofModel (.pack u')) := by
  have hzero : ∀ s, Float.ofModel (.pack (.zero s)) = 0.0 ∨
      Float.ofModel (.pack (.zero s)) = -0.0 := by
    rintro (_ | _)
    · exact .inr (by decide +kernel)
    · exact .inl (by decide +kernel)
  cases h with
  | refl => exact .refl _
  | zeros s s' => exact .zeros (hzero s) (hzero s')

theorem compare_eq (hx : Similar x x') (hy : Similar y y') :
    x.toModel.unpack.compare y.toModel.unpack = x'.toModel.unpack.compare y'.toModel.unpack :=
  hx.unpack.compare_eq hy.unpack

/-- Similar numbers are equal to similar numbers. -/
theorem beq_eq (hx : Similar x x') (hy : Similar y y') : (x == y) = (x' == y') :=
  congrArg (fun c : Option Ordering => c == some .eq) (compare_eq hx hy)

/-- Similar numbers stand in the same order. -/
theorem holds_eq (op : Comparison) (hx : Similar x x') (hy : Similar y y') :
    op.holds x y = op.holds x' y' := by
  have hle : ∀ a b : Float,
      decide (a ≤ b) = (a.toModel.unpack.compare b.toModel.unpack).any (·.isLE) := fun a b =>
    (Bool.decide_coe (a.le b)).trans (Bool.decide_coe (a.toModel.le b.toModel))
  cases op with
  | less => simp only [Comparison.holds, decide_lt_eq, compare_eq hx hy]
  | lessEqual => simp only [Comparison.holds, hle, compare_eq hx hy]
  | greater => simp only [Comparison.holds, decide_lt_eq, compare_eq hy hx]
  | greaterEqual => simp only [Comparison.holds, hle, compare_eq hy hx]

/-- Arithmetic makes similar results of similar operands, where no zero divides. -/
theorem apply {op : Arithmetic} (hdiv : op = .divide → (y == 0) = false) (hx : Similar x x')
    (hy : Similar y y') : Similar (op.apply x y) (op.apply x' y') := by
  cases op with
  | add => exact .pack (hx.unpack.add hy.unpack)
  | subtract => exact .pack (hx.unpack.sub hy.unpack)
  | multiply => exact .pack (hx.unpack.mul hy.unpack)
  | divide =>
    refine .pack (hx.unpack.div hy.unpack fun s hs => ?_)
    have hzero := (beq_zero_iff y).2 (unpack_eq_zero_iff_eq.1 ⟨s, hs⟩)
    rw [hdiv rfl] at hzero
    cases hzero

/-- Similar numbers have one text, unless they are the two zeros. -/
theorem text (h : Similar x y) :
    Style.display.text x = Style.display.text y ∨ (x == 0) = true ∧ (y == 0) = true ∧
      (Style.display.text x = "0" ∧ Style.display.text y = "-0" ∨
        Style.display.text x = "-0" ∧ Style.display.text y = "0") := by
  have hpositive : Style.display.text 0.0 = "0" := by decide +kernel
  have hnegative : Style.display.text (-0.0) = "-0" := by decide +kernel
  rcases h.eq_or_zeros with rfl | ⟨hx, hy⟩
  · exact .inl rfl
  rcases hx, hy with ⟨rfl | rfl, rfl | rfl⟩
  · exact .inl rfl
  · exact .inr ⟨by decide +kernel, by decide +kernel, .inl ⟨hpositive, hnegative⟩⟩
  · exact .inr ⟨by decide +kernel, by decide +kernel, .inr ⟨hnegative, hpositive⟩⟩
  · exact .inl rfl

end Similar

end TreeScript.Number
