import TreeScript.Proofs.Number.Drift
import TreeScript.Proofs.Number.Similar

/-!
# Counting with numbers

The natural numbers up to `2 ^ 53` are all numbers, so counting up to there is exact: sums are
(`Exactly.add`), and comparisons are those of natural numbers (`Exactly.holds_less`).

Numbers that are not negative stand in the order of their exponents first, since only the
smallest exponent has mantissas that are not full (`Finite.compare_unpacked`).
-/

open Float.Model UnpackedFloat

namespace TreeScript.Number

namespace Finite

variable {x y : Finite}

/-- Of two numbers the one with the larger exponent is the larger one. -/
theorem Canonical.magnitude_lt (hx : x.Canonical) (hy : y.Canonical)
    (h : x.exponent < y.exponent) : x.magnitude < y.magnitude := by
  have hmin := hx.min
  have hfull : 2 ^ 52 ≤ y.mantissa := hy.normal.resolve_right (by omega)
  have hxq : (x.mantissa : ℚ) < 2 ^ 53 := by exact_mod_cast hx.lt
  have hyq : (2 : ℚ) ^ 52 ≤ y.mantissa := by exact_mod_cast hfull
  calc x.magnitude < 2 ^ 53 * 2 ^ x.exponent := by
        unfold magnitude
        gcongr
    _ = 2 ^ 52 * 2 ^ (x.exponent + 1) := by
        rw [zpow_add_one₀ (by norm_num)]
        ring
    _ ≤ y.mantissa * 2 ^ y.exponent := by
        gcongr
        · norm_num
        · omega

theorem unpacked_of_eq_zero (h : x.mantissa = 0) : x.unpacked = .zero (sign x.negative) :=
  dif_pos h

theorem magnitude_of_eq_zero (h : x.mantissa = 0) : x.magnitude = 0 := by
  rw [magnitude, h, Nat.cast_zero, zero_mul]

theorem add_zero_unpacked (hpos : x.negative = false) (f : Format) :
    (UnpackedFloat.zero .positive).add f x.unpacked = x.unpacked ∧
      x.unpacked.add f (.zero .positive) = x.unpacked := by
  unfold unpacked
  split
  · rw [hpos]
    exact ⟨rfl, rfl⟩
  · exact ⟨rfl, rfl⟩

/-- The order of numbers that are not negative is the order of their magnitudes. -/
theorem compare_unpacked (hx : x.Canonical) (hy : y.Canonical) (hpos : x.negative = false)
    (hpos' : y.negative = false) :
    x.unpacked.compare y.unpacked = some (compare x.magnitude y.magnitude) := by
  by_cases hmx : x.mantissa = 0 <;> by_cases hmy : y.mantissa = 0
  · rw [unpacked_of_eq_zero hmx, unpacked_of_eq_zero hmy, magnitude_of_eq_zero hmx,
      magnitude_of_eq_zero hmy, compare_eq_iff_eq.2 rfl]
    rfl
  · rw [unpacked_of_eq_zero hmx, unpacked_of_ne_zero hmy, hpos', magnitude_of_eq_zero hmx,
      compare_lt_iff_lt.2 (magnitude_pos hmy)]
    rfl
  · rw [unpacked_of_ne_zero hmx, unpacked_of_eq_zero hmy, hpos, magnitude_of_eq_zero hmy,
      compare_gt_iff_gt.2 (magnitude_pos hmx)]
    rfl
  rw [unpacked_of_ne_zero hmx, unpacked_of_ne_zero hmy, hpos, hpos']
  show some ((compare x.exponent y.exponent).then (compare x.mantissa y.mantissa)) = _
  rcases lt_trichotomy x.exponent y.exponent with hlt | heq | hlt
  · rw [compare_lt_iff_lt.2 hlt, compare_lt_iff_lt.2 (hx.magnitude_lt hy hlt)]
    rfl
  · -- with one exponent, the mantissas decide
    have hunit : (0 : ℚ) < 2 ^ y.exponent := by positivity
    rw [compare_eq_iff_eq.2 heq, magnitude, magnitude, heq]
    rcases lt_trichotomy x.mantissa y.mantissa with hlt | heq | hlt
    · have hltq : (x.mantissa : ℚ) < y.mantissa := by exact_mod_cast hlt
      rw [compare_lt_iff_lt.2 hlt, compare_lt_iff_lt.2 ((mul_lt_mul_iff_left₀ hunit).2 hltq)]
      rfl
    · rw [heq, compare_eq_iff_eq.2 rfl, compare_eq_iff_eq.2 rfl]
      rfl
    · have hltq : (y.mantissa : ℚ) < x.mantissa := by exact_mod_cast hlt
      rw [compare_gt_iff_gt.2 hlt, compare_gt_iff_gt.2 ((mul_lt_mul_iff_left₀ hunit).2 hltq)]
      rfl
  · rw [compare_gt_iff_gt.2 hlt, compare_gt_iff_gt.2 (hy.magnitude_lt hx hlt)]
    rfl

end Finite

/-- A number that is a natural number, and has no sign before it. -/
def Exactly (x : Float) (n : ℕ) : Prop :=
  ∃ p, shape x = .finite p ∧ p.negative = false ∧ p.magnitude = n

theorem shape_zero : shape 0 = .finite ⟨false, 0, -1074⟩ := by
  decide +kernel

theorem exactly_zero : Exactly 0 0 :=
  ⟨_, shape_zero, rfl, by rw [Finite.magnitude_of_eq_zero rfl, Nat.cast_zero]⟩

theorem exactly_one : Exactly 1 1 :=
  ⟨⟨false, 2 ^ 52, -52⟩, by decide +kernel, rfl, by norm_num [Finite.magnitude]⟩

/-- The natural numbers up to `2 ^ 53` are numbers. -/
theorem exactly_nearest {n : ℕ} (hn : n ≠ 0) (hle : n ≤ 2 ^ 53) :
    Exactly (Finite.nearest false n).toFloat n := by
  have hnq : (0 : ℚ) < n := by exact_mod_cast Nat.pos_of_ne_zero hn
  have hleq : (n : ℚ) ≤ 2 ^ 53 := by exact_mod_cast hle
  have hbounded := Finite.bounded_nearest false hnq (Computes.lt_top_of_lt (by linarith))
  exact ⟨_, Finite.shape_toFloat hbounded, Finite.negative_nearest false n,
    Finite.magnitude_nearest_natCast false hn hle⟩

namespace Exactly

variable {x y : Float} {m n : ℕ}

/-- There is one number that is zero and has no sign. -/
theorem eq_zero (h : Exactly x 0) : x = 0 := by
  obtain ⟨⟨negative, mantissa, exponent⟩, hshape, hpos, hzero⟩ := h
  obtain rfl : negative = false := hpos
  obtain rfl : mantissa = 0 := by
    by_contra hne
    have hmagnitude := Finite.magnitude_pos (x := ⟨false, mantissa, exponent⟩) hne
    rw [hzero] at hmagnitude
    exact hmagnitude.ne' Nat.cast_zero
  obtain rfl : exponent = -1074 :=
    (Finite.bounded_of_shape hshape).normal.resolve_left (by norm_num)
  exact eq_of_shape_eq (hshape.trans shape_zero.symm)

/-- Zero adds nothing, on either side. -/
theorem add_zero (h : Exactly x n) : 0 + x = x ∧ x + 0 = x := by
  obtain ⟨p, hshape, hpos, -⟩ := h
  have hunpack := unpack_of_shape hshape
  have hzero : (0 : Float).toModel.unpack = .zero .positive := unpack_of_shape shape_zero
  have hsame : .ofModel (.pack x.toModel.unpack) = x := by
    rw [hunpack]
    exact Finite.toFloat_of_shape hshape
  obtain ⟨hleft, hright⟩ := Finite.add_zero_unpacked hpos Format.binary64
  rw [← hunpack, ← hzero] at hleft hright
  exact ⟨(congrArg (fun u => Float.ofModel (.pack u)) hleft).trans hsame,
    (congrArg (fun u => Float.ofModel (.pack u)) hright).trans hsame⟩

/-- Sums up to `2 ^ 53` are exact. -/
theorem add (hx : Exactly x m) (hy : Exactly y n) (hle : m + n ≤ 2 ^ 53) :
    Exactly (x + y) (m + n) := by
  rcases Nat.eq_zero_or_pos m with rfl | hm
  · rwa [hx.eq_zero, hy.add_zero.1, Nat.zero_add]
  rcases Nat.eq_zero_or_pos n with rfl | hn
  · rwa [hy.eq_zero, hx.add_zero.2, Nat.add_zero]
  obtain ⟨p, hshape, hpos, hmagnitude⟩ := hx
  obtain ⟨p', hshape', hpos', hmagnitude'⟩ := hy
  have hmantissa : ∀ {p : Finite} {k : ℕ}, p.magnitude = k → 0 < k → p.mantissa ≠ 0 :=
    fun hk hpos hzero => by
      rw [Finite.magnitude_of_eq_zero hzero] at hk
      exact hpos.ne (by exact_mod_cast hk)
  rw [add_eq hshape hshape' (hmantissa hmagnitude hm) (hmantissa hmagnitude' hn) hpos hpos',
    hmagnitude, hmagnitude', ← Nat.cast_add]
  exact exactly_nearest (by omega) hle

/-- From there on, one more is not a number any more. -/
example : (9007199254740992 : Float) + 1 = 9007199254740992 := by decide +kernel

/-- Comparison is that of natural numbers. -/
theorem holds_less (hx : Exactly x m) (hy : Exactly y n) :
    Comparison.less.holds x y = decide (m < n) := by
  obtain ⟨p, hshape, hpos, hm⟩ := hx
  obtain ⟨p', hshape', hpos', hn⟩ := hy
  have hcompare := Finite.compare_unpacked (Finite.bounded_of_shape hshape).toCanonical
    (Finite.bounded_of_shape hshape').toCanonical hpos hpos'
  rw [Comparison.holds, decide_lt_eq, unpack_of_shape hshape, unpack_of_shape hshape', hcompare,
    hm, hn]
  rcases Nat.lt_trichotomy m n with hlt | rfl | hlt
  · rw [compare_lt_iff_lt.2 (Nat.cast_lt.2 hlt), decide_eq_true hlt]
    rfl
  · rw [compare_eq_iff_eq.2 rfl, decide_eq_false (lt_irrefl m)]
    rfl
  · rw [compare_gt_iff_gt.2 (Nat.cast_lt.2 hlt), decide_eq_false hlt.not_gt]
    rfl

end Exactly

end TreeScript.Number
