import TreeScript.Proofs.Number.Display
import TreeScript.Proofs.Number.Length

/-!
# Fewest digits

The scan for the shortest decimal of a number goes from coarse grids to fine ones, and misses
none with a point that reads back. So there is no such point on a grid that is coarser than
that of the shortest decimal (`Finite.le_exponent_shortest_of_holds`). It follows that its last
digit is no zero (`Finite.significand_shortest_mod_ten`), and that no decimal with fewer digits
reads back (`Finite.length_digits_shortest_le`), since a power of ten between the two would
stand on a coarser grid.

A number that is not whole has digits behind the point (`Finite.exponent_shortest_neg`). All
whole numbers are farther away than half of the last place.
-/

namespace TreeScript.Number

namespace Finite

variable {x : Finite}

/-! ## Coarser grids -/

/-- A point that reads back is below the next power of two. -/
theorem Holds.lt_two_zpow {q : ℚ} (h : x.Holds q) :
    q < 2 ^ ((x.mantissa.log2 : ℤ) + 1 + x.exponent) := by
  have hunit : (0 : ℚ) < 2 ^ x.exponent := by positivity
  have hupper := h.bounds.2.1
  have hlog : (x.mantissa : ℚ) + 1 ≤ 2 ^ (x.mantissa.log2 + 1) := by
    exact_mod_cast Nat.lt_log2_self (n := x.mantissa)
  have hsplit : (2 : ℚ) ^ ((x.mantissa.log2 : ℤ) + 1 + x.exponent) =
      2 ^ (x.mantissa.log2 + 1) * 2 ^ x.exponent := by
    rw [zpow_add₀ two_ne_zero]
    norm_cast
  rw [cast_upper] at hupper
  rw [hsplit, ← div_lt_iff₀ hunit]
  linarith

/-- The shortest decimal stands on the coarsest grid with a point that reads back. -/
theorem le_exponent_shortest_of_holds (hx : x.mantissa ≠ 0) (tie : Tie) {n : ℕ} {k : ℤ}
    (h : x.Holds (n * 10 ^ k)) : k ≤ (x.shortest tie).exponent := by
  have hgrid : (0 : ℚ) < 10 ^ k := by positivity
  have hn : (1 : ℚ) ≤ n := by
    have hpos := (pos_iff_pos_of_mul_pos (h.pos hx)).2 hgrid
    exact_mod_cast hpos
  have hle : k ≤ x.coarsest :=
    le_coarsest_of_le ((le_mul_of_one_le_left hgrid.le hn).trans h.lt_two_zpow.le)
  rw [shortest, if_neg hx]
  exact le_exponent_scan (fun _ => isSome_onGrid_of_holds hx tie h) _ (by omega)

/-- A last digit that is zero would be left out on the next grid. -/
theorem significand_shortest_mod_ten (hx : x.mantissa ≠ 0) (tie : Tie) :
    (x.shortest tie).significand % 10 ≠ 0 := by
  intro hmod
  have hholds := holds_shortest hx tie
  have hvalue : (x.shortest tie).value =
      ((x.shortest tie).significand / 10 : ℕ) * 10 ^ ((x.shortest tie).exponent + 1) := by
    have htens : ((x.shortest tie).significand : ℚ) =
        ((x.shortest tie).significand / 10 : ℕ) * 10 := by
      exact_mod_cast (Nat.div_mul_cancel (Nat.dvd_of_mod_eq_zero hmod)).symm
    rw [Decimal.value, htens, zpow_add_one₀ (by norm_num), mul_assoc, mul_comm (10 : ℚ)]
  rw [hvalue] at hholds
  have hle := le_exponent_shortest_of_holds hx tie hholds
  omega

/-- No decimal with fewer digits than the shortest one reads back. -/
theorem length_digits_shortest_le (hx : x.mantissa ≠ 0) (tie : Tie) {d : Decimal}
    (h : x.Holds d.value) : (x.shortest tie).digits.length ≤ d.digits.length := by
  have hlength : 0 < d.digits.length := List.length_pos_iff.2 d.digits_ne_nil
  refine (Nat.length_toDigits_le_iff (by norm_num) hlength).2 (not_le.1 fun hlarge => ?_)
  -- otherwise there is a power of ten from the one to the other
  have hle := le_exponent_shortest_of_holds hx tie h
  have hpower : ((1 : ℕ) : ℚ) * 10 ^ ((x.shortest tie).exponent + d.digits.length) =
      10 ^ d.digits.length * 10 ^ (x.shortest tie).exponent := by
    rw [Nat.cast_one, one_mul, zpow_add₀ (by norm_num), zpow_natCast, mul_comm]
  have hbelow : d.value ≤ 10 ^ d.digits.length * 10 ^ (x.shortest tie).exponent := by
    have hlt : (d.significand : ℚ) ≤ 10 ^ d.digits.length := by
      exact_mod_cast d.lt_pow_length_digits.le
    exact mul_le_mul hlt (zpow_le_zpow_right₀ (by norm_num) hle) (by positivity) (by positivity)
  have habove : 10 ^ d.digits.length * 10 ^ (x.shortest tie).exponent ≤
      (x.shortest tie).value := by
    have hle : (10 : ℚ) ^ d.digits.length ≤ (x.shortest tie).significand := by
      exact_mod_cast hlarge
    exact mul_le_mul_of_nonneg_right hle (by positivity)
  have hholds := h.between (holds_shortest hx tie) hbelow habove
  rw [← hpower] at hholds
  have := le_exponent_shortest_of_holds hx tie hholds
  omega

/-! ## Whole numbers -/

theorem isWhole_iff (x : Finite) : x.isWhole = true ↔ ∃ n : ℕ, x.magnitude = n := by
  refine ⟨fun h => ⟨_, (wholePart_eq_magnitude h).symm⟩, ?_⟩
  rintro ⟨n, hn⟩
  have hunit := pow_toNat_div_pow_toNat (two_ne_zero (α := ℚ)) x.exponent
  have hdvd : 2 ^ (-x.exponent).toNat ∣ x.mantissa := by
    rcases le_or_gt 0 x.exponent with hexp | hexp
    · have hzero : (-x.exponent).toNat = 0 := by omega
      rw [hzero, pow_zero]
      exact one_dvd _
    · have hzero : x.exponent.toNat = 0 := by omega
      rw [hzero, pow_zero] at hunit
      rw [magnitude, ← hunit, mul_one_div, div_eq_iff (by positivity)] at hn
      exact ⟨n, by rw [mul_comm]; exact_mod_cast hn⟩
  exact beq_iff_eq.2 (Nat.mod_eq_zero_of_dvd hdvd)

/-- No whole number reads back as one that is not whole. -/
theorem Holds.isWhole (hx : x.mantissa ≠ 0) {n : ℕ} (h : x.Holds n) : x.isWhole = true := by
  rcases le_or_gt 0 x.exponent with hexp | hexp
  · have hzero : (-x.exponent).toNat = 0 := by omega
    simp [Finite.isWhole, hzero, Nat.mod_one]
  · have hunit : (0 : ℚ) < 2 ^ x.exponent := by positivity
    have hn : (n : ℚ) = (n * 2 ^ (-x.exponent).toNat : ℕ) * 2 ^ x.exponent := by
      have hzero : x.exponent.toNat = 0 := by omega
      rw [← pow_toNat_div_pow_toNat two_ne_zero x.exponent, hzero]
      push_cast
      field_simp
    have hdist := h.abs_sub_le hx
    rw [hn, magnitude, ← sub_mul, abs_mul, abs_of_pos hunit, div_eq_mul_one_div, mul_comm,
      mul_le_mul_iff_right₀ hunit] at hdist
    have hlt : |((n * 2 ^ (-x.exponent).toNat : ℕ) : ℤ) - x.mantissa| < 1 := by
      have hltq := hdist.trans_lt one_half_lt_one
      exact_mod_cast hltq
    have heq : n * 2 ^ (-x.exponent).toNat = x.mantissa := by
      have hzero := Int.abs_lt_one_iff.1 hlt
      omega
    exact (isWhole_iff x).2 ⟨n, by rw [magnitude, ← heq, ← hn]⟩

/-- The shortest decimal of a number that is not whole is not whole either. -/
theorem exponent_shortest_neg (h : x.isWhole = false) (tie : Tie) :
    (x.shortest tie).exponent < 0 := by
  have hx : x.mantissa ≠ 0 := by
    intro hzero
    simp [isWhole, hzero] at h
  by_contra hexp
  have hholds := holds_shortest hx tie
  have hvalue : (x.shortest tie).value =
      ((x.shortest tie).significand * 10 ^ (x.shortest tie).exponent.toNat : ℕ) := by
    rw [Decimal.value, ← Int.toNat_of_nonneg (not_lt.1 hexp), zpow_natCast, Int.toNat_natCast]
    push_cast
    rfl
  rw [hvalue] at hholds
  rw [hholds.isWhole hx] at h
  cases h

end Finite

end TreeScript.Number
