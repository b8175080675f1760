import TreeScript.Proofs.Number.Drift

/-!
# Rounding to nearest

What rounding to nearest is, with ties to even, said without computing it. A number is next to a
rational if no number is nearer, and if it is the even one where two are equally near
(`Finite.IsNext`). For every rational there is exactly one such number of each sign, and
`Finite.nearest` gives it (`Finite.isNext_iff`). The interval of a number holds the rationals
that it is next to (`Finite.isNext_iff_holds`).

The numbers that end at the place of a rational or before it are multiples of one unit, so the
nearest natural number decides between them. A number that ends behind this place is too small
to be near.
-/

namespace TreeScript.Number

/-! ## Nearest natural numbers -/

namespace IsNearest

variable {n k : ℕ} {r : ℚ}

/-- All other natural numbers are a half away or more. -/
theorem half_le_abs_sub (h : IsNearest n r) (hne : k ≠ n) : 1 / 2 ≤ |r - k| := by
  obtain ⟨hlow, hhigh⟩ := abs_le.1 h.1
  rcases Nat.lt_or_gt_of_ne hne with hlt | hgt
  · have hcast : (k : ℚ) + 1 ≤ n := by exact_mod_cast hlt
    exact (by linarith : 1 / 2 ≤ r - k).trans (le_abs_self _)
  · have hcast : (n : ℚ) + 1 ≤ k := by exact_mod_cast hgt
    exact (by linarith : 1 / 2 ≤ -(r - k)).trans (neg_le_abs _)

theorem abs_sub_le (h : IsNearest n r) (k : ℕ) : |r - n| ≤ |r - k| := by
  rcases eq_or_ne k n with rfl | hne
  · exact le_rfl
  · exact h.1.trans (h.half_le_abs_sub hne)

/-- Of two that are equally near, this one is even and the other is odd. -/
theorem tie (h : IsNearest n r) (hne : k ≠ n) (heq : |r - k| = |r - n|) :
    n % 2 = 0 ∧ k % 2 = 1 := by
  have hhalf : |r - n| = 1 / 2 := le_antisymm h.1 (heq ▸ h.half_le_abs_sub hne)
  refine ⟨h.2 hhalf, ?_⟩
  by_contra hmod
  have hk : IsNearest k r := ⟨(heq.trans hhalf).le, fun _ => by omega⟩
  exact hne (hk.unique h)

end IsNearest

namespace Finite

variable {x y : Finite} {q : ℚ}

/-! ## Next numbers -/

/-- No number is nearer to a rational, and of two that are equally near this is the even one.
There is no largest exponent here, since what lies beyond it is rounded to infinity. -/
structure IsNext (x : Finite) (q : ℚ) : Prop where
  le : ∀ y : Finite, y.Canonical → |q - x.magnitude| ≤ |q - y.magnitude|
  even : ∀ y : Finite, y.Canonical → y.magnitude ≠ x.magnitude →
    |q - y.magnitude| = |q - x.magnitude| → x.mantissa % 2 = 0

/-- Of the numbers with one sign, this one and no other is next to a rational. -/
def RoundsTo (q : ℚ) (x : Finite) : Prop :=
  ∀ y : Finite, y.Canonical → y.negative = x.negative → (y.IsNext q ↔ y = x)

/-- Only zero is next to zero. -/
theorem IsNext.pos (h : x.IsNext q) (hx : x.mantissa ≠ 0) (hq : 0 ≤ q) : 0 < q := by
  refine hq.lt_of_ne fun hzero => ?_
  have hle := h.le ⟨false, 0, -1074⟩ ⟨by norm_num, le_rfl, .inr rfl⟩
  have hpos := magnitude_pos hx
  rw [← hzero, zero_sub, abs_neg, abs_of_pos hpos] at hle
  norm_num [magnitude] at hle
  exact absurd hle (not_le.2 hpos)

/-! ## Multiples of the last place -/

/-- A number that ends at a place or before it is a multiple of that place. -/
theorem magnitude_eq_mul {e : ℤ} (h : e ≤ y.exponent) :
    y.magnitude = (y.mantissa * 2 ^ (y.exponent - e).toNat : ℕ) * 2 ^ e := by
  have hexp : y.exponent = (y.exponent - e).toNat + e := by omega
  unfold magnitude
  push_cast
  rw [mul_assoc, ← zpow_natCast, ← zpow_add₀ two_ne_zero, ← hexp]

theorem abs_sub_mul (q : ℚ) (n : ℕ) (e : ℤ) :
    |q - n * 2 ^ e| = |q / 2 ^ e - n| * 2 ^ e := by
  have hunit : (0 : ℚ) < 2 ^ e := by positivity
  rw [← abs_of_pos hunit, ← abs_mul, abs_of_pos hunit, sub_mul, div_mul_cancel₀ _ hunit.ne']

/-- A number is its distance from zero and its sign. -/
theorem Canonical.eq_of_magnitude_eq (hx : x.Canonical) (hy : y.Canonical)
    (hsign : x.negative = y.negative) (h : x.magnitude = y.magnitude) : x = y := by
  -- with a smaller exponent, the mantissa would have a digit too many
  have hnot : ∀ {u v : Finite}, u.Canonical → v.Canonical → u.magnitude = v.magnitude →
      ¬u.exponent < v.exponent := by
    intro u v hu hv huv hlt
    have hmin := hu.min
    have hfull : 2 ^ 52 ≤ v.mantissa := hv.normal.resolve_right (by omega)
    have hpow : 2 ≤ 2 ^ (v.exponent - u.exponent).toNat :=
      le_self_pow₀ (by norm_num) (by omega)
    have hmantissa : u.mantissa = v.mantissa * 2 ^ (v.exponent - u.exponent).toNat := by
      rw [magnitude_eq_mul hlt.le, magnitude, mul_right_cancel_iff_of_pos (by positivity)] at huv
      exact_mod_cast huv
    have hlarge := Nat.mul_le_mul hfull hpow
    have := hu.lt
    omega
  have hexp : x.exponent = y.exponent :=
    le_antisymm (not_lt.1 (hnot hy hx h.symm)) (not_lt.1 (hnot hx hy h))
  have hmantissa : x.mantissa = y.mantissa := by
    rw [magnitude, magnitude, hexp, mul_right_cancel_iff_of_pos (by positivity)] at h
    exact_mod_cast h
  obtain ⟨negative, mantissa, exponent⟩ := x
  obtain ⟨negative', mantissa', exponent'⟩ := y
  obtain rfl : negative = negative' := hsign
  obtain rfl : mantissa = mantissa' := hmantissa
  obtain rfl : exponent = exponent' := hexp
  rfl

/-- Of the multiples of its last place, the nearest one stands for a rational. -/
theorem abs_sub_nearest_le (negative : Bool) (hq : 0 < q) (k : ℕ) :
    |q - (nearest negative q).magnitude| ≤ |q - k * 2 ^ place q| := by
  rw [magnitude_nearest_eq negative hq, abs_sub_mul, abs_sub_mul]
  exact mul_le_mul_of_nonneg_right ((isNearest_place hq).abs_sub_le k) (by positivity)

/-- A number that ends behind the last place of a rational is farther away than the nearest. -/
theorem abs_sub_nearest_lt (negative : Bool) (hq : 0 < q) (hy : y.Canonical)
    (h : y.exponent < place q) : |q - (nearest negative q).magnitude| < |q - y.magnitude| := by
  have hmin := hy.min
  have hfull : (2 : ℚ) ^ 52 * 2 ^ place q ≤ q :=
    (le_div_iff₀ (by positivity)).1 (le_div_place hq (by omega))
  have hlt : y.magnitude < 2 ^ 52 * 2 ^ place q := by
    have hm : (y.mantissa : ℚ) < 2 ^ 53 := by exact_mod_cast hy.lt
    calc y.magnitude < 2 ^ 53 * 2 ^ y.exponent := by
          unfold magnitude
          gcongr
      _ = 2 ^ 52 * 2 ^ (y.exponent + 1) := by
          rw [zpow_add_one₀ two_ne_zero]
          ring
      _ ≤ 2 ^ 52 * 2 ^ place q := by
          gcongr
          · norm_num
          · omega
  have hle := abs_sub_nearest_le negative hq (2 ^ 52)
  rw [Nat.cast_pow, Nat.cast_ofNat,
    abs_of_nonneg (by linarith : 0 ≤ q - 2 ^ 52 * 2 ^ place q)] at hle
  rw [abs_of_pos (by linarith : 0 < q - y.magnitude)]
  linarith

/-- The last digit of the nearest number is that of the nearest multiple. -/
theorem mantissa_nearest_mod_two (negative : Bool)
    (h : nearestNat (q / 2 ^ place q) % 2 = 0) : (nearest negative q).mantissa % 2 = 0 := by
  unfold nearest
  dsimp only
  split
  · exact h
  · norm_num

/-! ## The nearest number -/

theorem isNext_nearest (negative : Bool) (hq : 0 < q) : (nearest negative q).IsNext q where
  le y hy := by
    rcases lt_or_ge y.exponent (place q) with hlt | hge
    · exact (abs_sub_nearest_lt negative hq hy hlt).le
    · rw [magnitude_eq_mul hge]
      exact abs_sub_nearest_le negative hq _
  even y hy hne heq := by
    rcases lt_or_ge y.exponent (place q) with hlt | hge
    · exact absurd heq (abs_sub_nearest_lt negative hq hy hlt).ne'
    · refine mantissa_nearest_mod_two negative ?_
      have hunit : (0 : ℚ) < 2 ^ place q := by positivity
      rw [magnitude_eq_mul hge, magnitude_nearest_eq negative hq] at hne heq
      rw [abs_sub_mul, abs_sub_mul, mul_right_cancel_iff_of_pos hunit] at heq
      refine ((isNearest_place hq).tie (fun hk => hne ?_) heq).1
      rw [hk]

/-- The nearest number is next to a rational, and no other is that has its sign. -/
theorem isNext_iff (hy : y.Canonical) (hq : 0 < q) : y.IsNext q ↔ nearest y.negative q = y := by
  refine ⟨fun h => ?_, fun h => h ▸ isNext_nearest y.negative hq⟩
  have hcanonical := canonical_nearest y.negative hq
  have hnearest := isNext_nearest y.negative hq
  have hdist := le_antisymm (h.le _ hcanonical) (hnearest.le y hy)
  by_cases hsame : (nearest y.negative q).magnitude = y.magnitude
  · exact hcanonical.eq_of_magnitude_eq hy (negative_nearest _ _) hsame
  -- both would be even, and they are neighbours
  have heven := h.even _ hcanonical hsame hdist.symm
  have hge : place q ≤ y.exponent := by
    by_contra hlt
    exact (abs_sub_nearest_lt y.negative hq hy (not_le.1 hlt)).ne hdist.symm
  have hunit : (0 : ℚ) < 2 ^ place q := by positivity
  rw [magnitude_eq_mul hge, magnitude_nearest_eq _ hq] at hsame hdist
  rw [abs_sub_mul, abs_sub_mul, mul_right_cancel_iff_of_pos hunit] at hdist
  have hodd := ((isNearest_place hq).tie (fun hk => hsame (by rw [hk])) hdist).2
  rw [Nat.mul_mod, heven, Nat.zero_mul] at hodd
  cases hodd

theorem roundsTo_iff (hx : x.Canonical) (hq : 0 < q) :
    RoundsTo q x ↔ nearest x.negative q = x := by
  constructor
  · exact fun h => (isNext_iff hx hq).1 ((h x hx rfl).2 rfl)
  · intro h y hy hsign
    rw [isNext_iff hy hq, hsign, h, eq_comm]

/-! ## Intervals -/

/-- The interval of a number holds the rationals that it is next to, and no others. -/
theorem isNext_iff_holds (h : x.Canonical) (hx : x.mantissa ≠ 0) (hq : 0 < q) :
    x.IsNext q ↔ x.Holds q :=
  (isNext_iff h hq).trans ⟨holds_of_nearest hx hq, nearest_of_holds h hx⟩

end Finite

end TreeScript.Number
