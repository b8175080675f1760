import TreeScript.Proofs.Number.Digits
import TreeScript.Proofs.Number.Rounding

/-!
# Decimals next to numbers

The interval of a number holds the rationals that are rounded to the number, and no others
(`Finite.nearest_of_holds`, `Finite.holds_of_nearest`). Mostly it is where the mantissa is the
nearest one (`Finite.holds_iff_isNearest`); below a power of two it ends earlier. The shortest
decimal of a number is taken from it, so it rounds to the number (`Finite.nearest_shortest`).
-/

namespace TreeScript.Number

/-! ## The interval that reads back -/

namespace Finite

variable {x : Finite}

/-- The rationals that the interval of a number holds. -/
def Holds (x : Finite) (q : ℚ) : Prop :=
  if x.mantissa % 2 = 0 then
    (x.lower : ℚ) ≤ 4 * (q / 2 ^ x.exponent) ∧ 4 * (q / 2 ^ x.exponent) ≤ x.upper
  else
    (x.lower : ℚ) < 4 * (q / 2 ^ x.exponent) ∧ 4 * (q / 2 ^ x.exponent) < x.upper

/-- In quarters, the interval is the same. -/
theorem reaches_iff_holds {point unit : ℕ} (hunit : 0 < unit) {q : ℚ}
    (hq : 4 * (q / 2 ^ x.exponent) = point / unit) : x.reaches point unit = true ↔ x.Holds q := by
  have hunitq : (0 : ℚ) < unit := by exact_mod_cast hunit
  unfold Holds reaches
  rw [hq, le_div_iff₀ hunitq, div_le_iff₀ hunitq, lt_div_iff₀ hunitq, div_lt_iff₀ hunitq]
  split <;> simp only [Bool.and_eq_true, decide_eq_true_eq] <;> norm_cast

theorem Holds.bounds {q : ℚ} (h : x.Holds q) :
    (x.lower : ℚ) ≤ 4 * (q / 2 ^ x.exponent) ∧ 4 * (q / 2 ^ x.exponent) ≤ x.upper ∧
      (x.mantissa % 2 ≠ 0 →
        (x.lower : ℚ) < 4 * (q / 2 ^ x.exponent) ∧ 4 * (q / 2 ^ x.exponent) < x.upper) := by
  unfold Holds at h
  split at h
  · rename_i hmod
    exact ⟨h.1, h.2, fun hodd => absurd hmod hodd⟩
  · exact ⟨h.1.le, h.2.le, fun _ => h⟩

/-- What lies between two rationals of the interval lies in the interval. -/
theorem Holds.between {a b c : ℚ} (ha : x.Holds a) (hc : x.Holds c) (hab : a ≤ b) (hbc : b ≤ c) :
    x.Holds b := by
  have hunit : (0 : ℚ) < 2 ^ x.exponent := by positivity
  have hlow : a / 2 ^ x.exponent ≤ b / 2 ^ x.exponent := div_le_div_of_nonneg_right hab hunit.le
  have hhigh : b / 2 ^ x.exponent ≤ c / 2 ^ x.exponent := div_le_div_of_nonneg_right hbc hunit.le
  unfold Holds at ha hc ⊢
  split at ha <;> rename_i hmod
  · rw [if_pos hmod] at hc ⊢
    exact ⟨by linarith, by linarith⟩
  · rw [if_neg hmod] at hc ⊢
    exact ⟨by linarith, by linarith⟩

theorem cast_upper (x : Finite) : (x.upper : ℚ) = 4 * x.mantissa + 2 := by
  unfold upper
  push_cast
  ring

theorem cast_lower (hx : x.mantissa ≠ 0) :
    (x.lower : ℚ) = 4 * x.mantissa - if x.lowerGapIsHalf then 1 else 2 := by
  unfold lower
  split <;> rw [Nat.cast_sub (by omega)] <;> push_cast <;> ring

theorem le_cast_lower (hx : x.mantissa ≠ 0) : 4 * (x.mantissa : ℚ) - 2 ≤ x.lower := by
  rw [cast_lower hx]
  split <;> linarith

/-- What an interval holds is at most half of the last place away. -/
theorem Holds.abs_sub_le (hx : x.mantissa ≠ 0) {q : ℚ} (h : x.Holds q) :
    |q - x.magnitude| ≤ 2 ^ x.exponent / 2 := by
  obtain ⟨hlower, hupper, -⟩ := h.bounds
  have hunit : (0 : ℚ) < 2 ^ x.exponent := by positivity
  have hsplit : q - x.magnitude = (q / 2 ^ x.exponent - x.mantissa) * 2 ^ x.exponent := by
    rw [sub_mul, div_mul_cancel₀ _ hunit.ne', magnitude]
  have hle : |q / 2 ^ x.exponent - x.mantissa| ≤ 1 / 2 := by
    rw [cast_upper] at hupper
    exact abs_le.2 ⟨by linarith [le_cast_lower hx], by linarith⟩
  rw [hsplit, abs_mul, abs_of_pos hunit]
  linarith [mul_le_mul_of_nonneg_right hle hunit.le]

theorem Holds.pos {q : ℚ} (hx : x.mantissa ≠ 0) (h : x.Holds q) : 0 < q := by
  have hlower : (0 : ℚ) < x.lower := by exact_mod_cast lower_pos hx
  have hquotient : 0 < q / 2 ^ x.exponent := by linarith [h.bounds.1]
  exact (div_pos_iff_of_pos_right (by positivity)).1 hquotient

/-! ## Intervals and rounding -/

theorem lowerGapIsHalf_iff :
    x.lowerGapIsHalf = true ↔ x.mantissa = 2 ^ 52 ∧ -1074 < x.exponent := by
  simp [lowerGapIsHalf]

/-- Where both neighbours are equally far, the interval holds what is rounded to the
mantissa. -/
theorem holds_iff_isNearest (hx : x.mantissa ≠ 0) (hgap : x.lowerGapIsHalf = false) {q : ℚ} :
    x.Holds q ↔ IsNearest x.mantissa (q / 2 ^ x.exponent) := by
  have hlower : (x.lower : ℚ) = 4 * x.mantissa - 2 := by simp [cast_lower hx, hgap]
  unfold Holds IsNearest
  rw [hlower, cast_upper]
  split
  · rename_i heven
    refine ⟨fun h => ⟨abs_le.2 ⟨by linarith, by linarith⟩, fun _ => heven⟩, fun h => ?_⟩
    obtain ⟨hlow, hhigh⟩ := abs_le.1 h.1
    exact ⟨by linarith, by linarith⟩
  · rename_i hodd
    -- the ends of the interval are ties, and go to the neighbours
    refine ⟨fun h => ?_, fun h => ?_⟩
    · have hlt : |q / 2 ^ x.exponent - x.mantissa| < 1 / 2 :=
        abs_lt.2 ⟨by linarith, by linarith⟩
      exact ⟨hlt.le, fun htie => absurd htie hlt.ne⟩
    · obtain ⟨hlow, hhigh⟩ := abs_lt.1 (h.1.lt_of_ne fun htie => hodd (h.2 htie))
      exact ⟨by linarith, by linarith⟩

/-- Below a power of two, the interval ends after half the distance. -/
theorem holds_iff_of_lowerGapIsHalf (hgap : x.lowerGapIsHalf = true) {q : ℚ} :
    x.Holds q ↔ 2 ^ 52 - 1 / 4 ≤ q / 2 ^ x.exponent ∧ q / 2 ^ x.exponent ≤ 2 ^ 52 + 1 / 2 := by
  have hm := (lowerGapIsHalf_iff.1 hgap).1
  unfold Holds
  rw [if_pos (by omega), cast_upper, cast_lower (by omega), if_pos hgap, hm]
  push_cast
  constructor <;> rintro ⟨hlow, hhigh⟩ <;> constructor <;> linarith

/-- A number is next to what its interval holds. -/
theorem nearest_of_holds (h : x.Canonical) (hx : x.mantissa ≠ 0) {q : ℚ} (hq : x.Holds q) :
    nearest x.negative q = x := by
  have hpos := hq.pos hx
  cases hgap : x.lowerGapIsHalf with
  | false =>
    have hnear := (holds_iff_isNearest hx hgap).1 hq
    obtain ⟨hlow, hhigh⟩ := abs_le.1 hnear.1
    have hbelow : q / 2 ^ x.exponent < 2 ^ 53 := by
      have hm : (x.mantissa : ℚ) + 1 ≤ 2 ^ 53 := by exact_mod_cast h.lt
      linarith
    have hplace : place q = x.exponent := by
      rcases h.min.eq_or_lt with hmin | hmin
      · exact (place_eq_min hpos (hmin ▸ hbelow)).trans hmin
      · have hnormal := h.normal.resolve_right (by omega)
        have hne : x.mantissa ≠ 2 ^ 52 := fun hm => by
          rw [lowerGapIsHalf_iff.2 ⟨hm, hmin⟩] at hgap
          cases hgap
        have hm : (2 : ℚ) ^ 52 + 1 ≤ x.mantissa := by
          exact_mod_cast Nat.lt_of_le_of_ne hnormal hne.symm
        exact place_eq (by linarith) hbelow h.min
    exact nearest_of_lt x.negative hpos.le hplace hnear h.lt
  | true =>
    obtain ⟨hm, hmin⟩ := lowerGapIsHalf_iff.1 hgap
    obtain ⟨hlow, hhigh⟩ := (holds_iff_of_lowerGapIsHalf hgap).1 hq
    rcases le_or_gt (2 ^ 52) (q / 2 ^ x.exponent) with habove | hunder
    · have hnear : IsNearest x.mantissa (q / 2 ^ x.exponent) := by
        rw [hm]
        push_cast
        exact ⟨abs_le.2 ⟨by linarith, by linarith⟩, fun _ => by norm_num⟩
      exact nearest_of_lt x.negative hpos.le (place_eq habove (by linarith) h.min) hnear h.lt
    -- just below a power of two there is a digit more
    · have hdouble : q / 2 ^ (x.exponent - 1) = 2 * (q / 2 ^ x.exponent) := by
        rw [zpow_sub_one₀ two_ne_zero]
        field_simp
      have hplace : place q = x.exponent - 1 := by
        refine place_eq ?_ ?_ (by omega) <;> rw [hdouble] <;> linarith
      have hnear : IsNearest (2 ^ 53) (q / 2 ^ (x.exponent - 1)) := by
        rw [hdouble]
        push_cast
        exact ⟨abs_le.2 ⟨by linarith, by linarith⟩, fun _ => rfl⟩
      rw [nearest_of_two_pow x.negative hpos.le hplace hnear, sub_add_cancel, ← hm]

/-- The interval of a number holds what is rounded to it. -/
theorem holds_of_nearest (hx : x.mantissa ≠ 0) {q : ℚ} (hq : 0 < q)
    (h : nearest x.negative q = x) : x.Holds q := by
  obtain ⟨n, -, hnear, heq⟩ | ⟨hnear, heq⟩ := nearest_cases x.negative hq <;> rw [heq] at h
  · -- the digits of the rational end with those of the number
    obtain ⟨hm, hexp⟩ : n = x.mantissa ∧ place q = x.exponent :=
      ⟨congrArg mantissa h, congrArg exponent h⟩
    rw [hm, hexp] at hnear
    cases hgap : x.lowerGapIsHalf with
    | false => exact (holds_iff_isNearest hx hgap).2 hnear
    | true =>
      obtain ⟨hpower, hmin⟩ := lowerGapIsHalf_iff.1 hgap
      have hfull := le_div_place hq (by omega)
      have hhigh := (abs_le.1 hnear.1).2
      rw [hexp] at hfull
      rw [hpower] at hhigh
      push_cast at hhigh
      exact (holds_iff_of_lowerGapIsHalf hgap).2 ⟨by linarith, by linarith⟩
  · -- the rational has a digit more, and is rounded up to a power of two
    obtain ⟨hm, hexp⟩ : 2 ^ 52 = x.mantissa ∧ place q + 1 = x.exponent :=
      ⟨congrArg mantissa h, congrArg exponent h⟩
    have hmin := min_le_place q
    have hplace := div_place_lt q
    have hlow := (abs_le.1 hnear.1).1
    have hhalf : q / 2 ^ x.exponent = q / 2 ^ place q / 2 := by
      rw [← hexp, zpow_add_one₀ two_ne_zero, div_div]
    rw [holds_iff_of_lowerGapIsHalf (lowerGapIsHalf_iff.2 ⟨hm.symm, by omega⟩), hhalf]
    push_cast at hlow
    exact ⟨by linarith, by linarith⟩

end Finite

/-! ## Shortest decimals -/

/-- The rational that a decimal stands for. -/
def Decimal.value (d : Decimal) : ℚ :=
  d.significand * 10 ^ d.exponent

/-- A power with the exponent as a difference of natural numbers. -/
theorem pow_toNat_div_pow_toNat {a : ℚ} (ha : a ≠ 0) (z : ℤ) :
    a ^ z.toNat / a ^ (-z).toNat = a ^ z := by
  rw [← zpow_natCast, ← zpow_natCast, ← zpow_sub₀ ha]
  congr 1
  omega

namespace Finite

variable {x : Finite}

/-- A point of a grid, in quarters. -/
theorem quarters_point (x : Finite) (k : ℤ) (point : ℕ) :
    4 * ((point : ℚ) * 10 ^ k / 2 ^ x.exponent) =
      (point * (Nat.pow 2 (2 - x.exponent).toNat * Nat.pow 10 k.toNat) : ℕ) /
        (Nat.pow 2 (x.exponent - 2).toNat * Nat.pow 10 (-k).toNat : ℕ) := by
  have htwo := pow_toNat_div_pow_toNat two_ne_zero (2 - x.exponent)
  have hten := pow_toNat_div_pow_toNat (by norm_num : (10 : ℚ) ≠ 0) k
  rw [neg_sub] at htwo
  simp only [Nat.pow_eq]
  push_cast
  calc 4 * (point * 10 ^ k / 2 ^ x.exponent)
      = point * ((2 : ℚ) ^ (2 - x.exponent) * 10 ^ k) := by
        rw [zpow_sub₀ two_ne_zero]
        ring
    _ = _ := by
        rw [← htwo, ← hten]
        field_simp

theorem reaches_point_iff (x : Finite) (k : ℤ) (point : ℕ) :
    x.reaches (point * (Nat.pow 2 (2 - x.exponent).toNat * Nat.pow 10 k.toNat))
      (Nat.pow 2 (x.exponent - 2).toNat * Nat.pow 10 (-k).toNat) = true ↔
        x.Holds (point * 10 ^ k) :=
  reaches_iff_holds (Nat.mul_pos (Nat.pow_pos (by omega)) (Nat.pow_pos (by omega)))
    (x.quarters_point k point)

theorem holds_onGrid {tie : Tie} {k : ℤ} {point : ℕ} (h : x.onGrid tie k = some point) :
    x.Holds (point * 10 ^ k) :=
  (x.reaches_point_iff k point).1 (reaches_onGrid h)

theorem value_exact (x : Finite) : x.exact.value = x.magnitude := by
  unfold Decimal.value exact finest magnitude
  simp only [Nat.pow_eq]
  push_cast
  rcases le_or_gt 0 x.exponent with h | h
  · have hneg : (-x.exponent).toNat = 0 := by omega
    rw [hneg, min_eq_right h, ← zpow_natCast, Int.toNat_of_nonneg h]
    norm_num
  · have hpos : x.exponent.toNat = 0 := by omega
    have hten : (10 : ℚ) ^ x.exponent = 5 ^ x.exponent * 2 ^ x.exponent := by
      rw [← mul_zpow]
      norm_num
    have hfive : (5 : ℚ) ^ (-x.exponent).toNat = 5 ^ (-x.exponent) := by
      rw [← zpow_natCast, Int.toNat_of_nonneg (by omega)]
    rw [hpos, min_eq_left h.le, hten, hfive, zpow_neg]
    field_simp

/-- The interval of a number holds the number. -/
theorem holds_magnitude (hx : x.mantissa ≠ 0) : x.Holds x.magnitude := by
  have hself : 4 * (x.magnitude / 2 ^ x.exponent) = 4 * x.mantissa := by
    rw [magnitude, mul_div_cancel_right₀ _ (by positivity)]
  have hpos : 0 < x.mantissa := Nat.pos_of_ne_zero hx
  have hlower : x.lower < 4 * x.mantissa := by
    unfold lower
    split <;> omega
  have hupper : 4 * x.mantissa < x.upper := by
    unfold upper
    omega
  unfold Holds
  rw [hself]
  split
  · exact ⟨by exact_mod_cast hlower.le, by exact_mod_cast hupper.le⟩
  · exact ⟨by exact_mod_cast hlower, by exact_mod_cast hupper⟩

theorem holds_exact (hx : x.mantissa ≠ 0) : x.Holds x.exact.value := by
  rw [value_exact]
  exact holds_magnitude hx

theorem holds_scan (hx : x.mantissa ≠ 0) (tie : Tie) :
    ∀ steps, x.Holds (x.scan tie steps).value
  | 0 => holds_exact hx
  | steps + 1 => by
    rw [scan]
    split
    · rename_i hpoint
      exact holds_onGrid hpoint
    · exact holds_scan hx tie steps

theorem holds_shortest (hx : x.mantissa ≠ 0) (tie : Tie) : x.Holds (x.shortest tie).value := by
  rw [shortest, if_neg hx]
  exact holds_scan hx tie _

/-- The shortest decimal of a number is next to it. -/
theorem nearest_shortest (h : x.Canonical) (hx : x.mantissa ≠ 0) (tie : Tie) :
    nearest x.negative (x.shortest tie).value = x :=
  nearest_of_holds h hx (holds_shortest hx tie)

end Finite

end TreeScript.Number
