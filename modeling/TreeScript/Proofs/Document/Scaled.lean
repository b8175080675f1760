import TreeScript.Proofs.Document.Spelled
import TreeScript.Proofs.Number.Drift

/-!
# What scaling gives

A reader turns the digits of a numeral into a number, and multiplies or divides it by a
power of ten, which is a number too. Each of these steps is rounded. Nothing is lost
before the last step where the digits and the power are small (`scale_of_representable`).
Otherwise five roundings are the most there are, and the result is in range if the product
is (`exists_scale`).
-/

open Float.Model UnpackedFloat TreeScript.Number

namespace TreeScript.Document

/-! ## Powers of ten -/

theorem one_le_pow_ten (k : ℕ) : (1 : ℚ) ≤ 10 ^ k :=
  one_le_pow₀ (by norm_num)

/-- Whether a power of ten is a number itself. -/
def exactPower (k : ℕ) : Bool :=
  match shape (powerOfTen k) with
  | .finite p => !p.negative && p.mantissa != 0 &&
    p.mantissa * 2 ^ p.exponent.toNat == 10 ^ k * 2 ^ (-p.exponent).toNat
  | _ => false

/-- Up to `10 ^ 22` the powers of ten are numbers. -/
theorem computes_powerOfTen_exact {k : ℕ} (hk : k ≤ 22) :
    ∃ p, Computes (powerOfTen k) p 0 (10 ^ k) := by
  have hall : ∀ k < 23, exactPower k = true := by decide +kernel
  have h := hall k (Nat.lt_succ_of_le hk)
  unfold exactPower at h
  split at h
  · rename_i p hp
    simp only [Bool.and_eq_true, Bool.not_eq_true', bne_iff_ne, beq_iff_eq] at h
    obtain ⟨⟨hnegative, hmantissa⟩, heq⟩ := h
    refine ⟨p, hp, hnegative, hmantissa, Near.zero_iff.2 ?_⟩
    have hcast : (p.mantissa : ℚ) * 2 ^ p.exponent.toNat = 10 ^ k * 2 ^ (-p.exponent).toNat := by
      exact_mod_cast heq
    rw [Finite.magnitude, ← pow_toNat_div_pow_toNat two_ne_zero, ← mul_div_assoc, hcast,
      mul_div_cancel_right₀ _ (by positivity)]
  · cases h

/-- A greater power of ten is rounded once. -/
theorem powerOfTen_eq {k : ℕ} (hk : 22 < k) (hmax : k ≤ 308) :
    powerOfTen k = (Finite.nearest false (10 ^ k)).toFloat := by
  have hbig : ¬((k : ℤ) > 2 ^ Format.binary64.exponentBits) := by
    show ¬((k : ℤ) > 2 ^ 11)
    omega
  have hsmall : ¬((k : ℤ) < -(2 ^ Format.binary64.exponentBits + ((1 : ℕ).log2 : ℤ))) := by
    show ¬((k : ℤ) < -(2 ^ 11 + ((1 : ℕ).log2 : ℤ)))
    omega
  rw [powerOfTen, Float.ofScientific, dif_neg (by omega)]
  show Float.ofModel (.pack (UnpackedFloat.ofScientific Format.binary64 1 (k : ℤ))) = _
  rw [UnpackedFloat.ofScientific, dif_neg one_ne_zero, if_neg hbig, if_neg hsmall,
    if_pos (Int.natCast_nonneg k), UnpackedFloat.mul]
  refine congrArg (fun u => Float.ofModel (.pack u)) ?_
  rw [Int.toNat_natCast]
  show roundWithAccuracy Format.binary64 (Finite.sign false) (1 <<< 53 * 10 ^ k) (-53) .exact = _
  refine roundWithAccuracy_eq false (by positivity) ?_ ?_
  · have hunit : (10 : ℚ) ^ k / (2 : ℚ) ^ (-53 : ℤ) = (1 <<< 53 * 10 ^ k : ℕ) := by
      rw [zpow_neg, div_inv_eq_mul, Nat.shiftLeft_eq, mul_comm]
      push_cast
      norm_num
    rw [hunit]
    exact tells_exact _
  · have hlog : 0 ≤ Int.log 2 ((10 : ℚ) ^ k) :=
      (Int.zpow_le_iff_le_log (by norm_num) (by positivity)).1 (by simpa using one_le_pow_ten k)
    unfold place
    omega

theorem computes_powerOfTen {k : ℕ} (hk : k ≤ 308) :
    ∃ p, Computes (powerOfTen k) p 1 (10 ^ k) := by
  rcases le_or_gt k 22 with hle | hgt
  · obtain ⟨p, hp⟩ := computes_powerOfTen_exact hle
    exact ⟨p, hp.shape, hp.negative, hp.mantissa,
      hp.near.mono (Finite.magnitude_pos hp.mantissa) hp.pos zero_le_one⟩
  · have hone := one_le_pow_ten k
    have hmax : (10 : ℚ) ^ k < 2 ^ 1024 - 2 ^ 970 := by
      have hnat : 10 ^ 308 + 2 ^ 970 < 2 ^ 1024 := by decide +kernel
      have hcast : (10 : ℚ) ^ 308 + 2 ^ 970 < 2 ^ 1024 := by exact_mod_cast hnat
      rw [lt_sub_iff_add_lt]
      exact (add_le_add_left (pow_le_pow_right₀ (by norm_num) hk) _).trans_lt hcast
    rw [powerOfTen_eq hgt hk]
    refine ⟨_, Computes.nearest ?_ hmax (Near.zero_iff.2 rfl)⟩
    exact (zpow_le_one_of_nonpos₀ (by norm_num) (by norm_num)).trans hone

/-! ## Scaling -/

variable {n : ℕ} {e : ℤ}

/-- Up to a certain size a power is divided out at once. -/
theorem scale_of_neg {x : Float} (he : e < 0) (hmin : -308 ≤ e) :
    scale x e = some (x / powerOfTen e.natAbs) := by
  have hround : (e.natAbs - 1) / 308 = 0 := by omega
  have hlast : (e.natAbs - 1) % 308 + 1 = e.natAbs := by omega
  unfold scale
  dsimp only
  rw [if_pos he, hround, hlast]
  rfl

theorem scale_of_lt {x : Float} {p : Finite} (hx : shape x = .finite p) (hp : p.mantissa ≠ 0)
    (he : e < -308) (hmin : -616 ≤ e) :
    scale x e = some (x / powerOfTen 308 / powerOfTen (e.natAbs - 308)) := by
  have hround : (e.natAbs - 1) / 308 = 1 := by omega
  have hlast : (e.natAbs - 1) % 308 + 1 = e.natAbs - 308 := by omega
  have hzero : (x == 0) = false := by
    refine Bool.eq_false_iff.2 fun h => hp ?_
    rcases (beq_zero_iff x).1 h with rfl | rfl
    · have hshape : shape 0.0 = .finite ⟨false, 0, -1074⟩ := by decide +kernel
      cases hshape.symm.trans hx
      rfl
    · have hshape : shape (-0.0) = .finite ⟨true, 0, -1074⟩ := by decide +kernel
      cases hshape.symm.trans hx
      rfl
  unfold scale
  dsimp only
  rw [if_pos (by omega), hround, hlast, scaleDown, hzero]
  rfl

theorem scale_of_nonneg {x : Float} {p : Finite} (he : 0 ≤ e) (hmax : e ≤ 308)
    (hx : shape (x * powerOfTen e.toNat) = .finite p) :
    scale x e = some (x * powerOfTen e.toNat) := by
  unfold scale
  dsimp only
  rw [if_neg (by omega), if_pos hmax, isInf_of_shape hx]
  rfl

/-- The power of ten as a factor or a divisor. -/
theorem mul_zpow_of_neg {a : ℚ} (he : e ≤ 0) : a * 10 ^ e = a / 10 ^ e.natAbs := by
  have hexp : e = -(e.natAbs : ℤ) := by omega
  rw [hexp, zpow_neg, zpow_natCast, div_eq_mul_inv, Int.natAbs_neg, Int.natAbs_natCast]

theorem mul_zpow_of_nonneg {a : ℚ} (he : 0 ≤ e) : a * 10 ^ e = a * 10 ^ e.toNat := by
  rw [← zpow_natCast, Int.toNat_of_nonneg he]

/-- Small digits with a small power of ten are rounded once. -/
theorem scale_of_representable (hn : n ≠ 0) (hle : n ≤ 2 ^ 53) (he : e.natAbs ≤ 22)
    (hbounded : (Finite.nearest false (n * 10 ^ e)).Bounded) :
    scale (UInt64.ofNat n).toFloat e = some (Finite.nearest false (n * 10 ^ e)).toFloat := by
  have hdigits := Computes.ofNat_exact hn hle
  rcases lt_or_ge e 0 with hneg | hpos
  · obtain ⟨p, hpower⟩ := computes_powerOfTen_exact he
    rw [scale_of_neg hneg (by omega), hdigits.div_eq hpower, mul_zpow_of_neg hneg.le,
      Near.zero_iff.1 hdigits.near, Near.zero_iff.1 hpower.near]
  · obtain ⟨p, hpower⟩ := computes_powerOfTen_exact (k := e.toNat) (by omega)
    have hproduct := hdigits.mul_eq hpower
    rw [Near.zero_iff.1 hdigits.near, Near.zero_iff.1 hpower.near,
      ← mul_zpow_of_nonneg hpos] at hproduct
    rw [← hproduct]
    refine scale_of_nonneg hpos (by omega) (p := Finite.nearest false (n * 10 ^ e)) ?_
    rw [hproduct]
    exact Finite.shape_toFloat hbounded

/-- The greatest power of ten leaves a usual size to what it divides. -/
theorem two_zpow_le_div_of_one_le {a : ℚ} (ha : 1 ≤ a) :
    2 ^ (-1024 : ℤ) ≤ a / 10 ^ 308 * drift ^ 4 := by
  have hpower : (10 : ℚ) ^ 308 ≤ 3 / 5 * 2 ^ 1024 := by
    have hnat : 5 * 10 ^ 308 ≤ 3 * 2 ^ 1024 := by decide +kernel
    have hcast : (5 : ℚ) * 10 ^ 308 ≤ 3 * 2 ^ 1024 := by exact_mod_cast hnat
    rwa [div_mul_eq_mul_div, le_div_iff₀ (by norm_num), mul_comm]
  have hdrift : 3 / 5 ≤ a * drift ^ 4 := by
    have hle : 3 / 5 ≤ drift ^ 4 := by norm_num [drift]
    exact hle.trans (le_mul_of_one_le_left (hle.trans' (by norm_num)) ha)
  have hinv : (2 : ℚ) ^ (-1024 : ℤ) = (2 ^ 1024)⁻¹ := zpow_neg 2 1024
  rw [hinv, inv_le_iff_one_le_mul₀ (by positivity), div_mul_eq_mul_div, div_mul_eq_mul_div,
    one_le_div (by positivity)]
  exact hpower.trans (mul_le_mul_of_nonneg_right hdrift (by positivity))

/-- Division by a power of ten stays in range, and is rounded four or five times unless the
last result is too small. -/
theorem exists_scale_of_neg (hn : n ≠ 0) (hlt : n < 2 ^ 64) (hmin : -616 ≤ e) (he : e < 0) :
    ∃ p : Finite, p.Bounded ∧ p.negative = false ∧
      scale (UInt64.ofNat n).toFloat e = some p.toFloat ∧
      (2 ^ (-1024 : ℤ) ≤ n * 10 ^ e * drift ^ 4 → Near 5 p.magnitude (n * 10 ^ e)) := by
  have hdigits := Computes.ofNat hn hlt
  have hnq : (1 : ℚ) ≤ n := by exact_mod_cast Nat.one_le_iff_ne_zero.2 hn
  have hltq : (n : ℚ) < 2 ^ 64 := by exact_mod_cast hlt
  have hdiv : ∀ k : ℕ, (n : ℚ) / 10 ^ k < 2 ^ 64 := fun k =>
    (div_le_self (by positivity) (one_le_pow_ten k)).trans_lt hltq
  rw [mul_zpow_of_neg he.le]
  rcases le_or_gt (-308) e with hbig | hsmall
  · obtain ⟨p, hpower⟩ := computes_powerOfTen (k := e.natAbs) (by omega)
    obtain ⟨q, hq, hnegative, heq, hnear⟩ :=
      hdigits.exists_quotient hpower (by norm_num) (hdiv _)
    rw [scale_of_neg he hbig, heq]
    refine ⟨q, hq, hnegative, rfl, fun h => ?_⟩
    have hcomputes := hnear h
    exact hcomputes.near.mono (Finite.magnitude_pos hcomputes.mantissa) hcomputes.pos (by norm_num)
  · obtain ⟨p, hpower⟩ := computes_powerOfTen (k := 308) le_rfl
    obtain ⟨p', hpower'⟩ := computes_powerOfTen (k := e.natAbs - 308) (by omega)
    obtain ⟨q, hq, -, heq, hnear⟩ := hdigits.exists_quotient hpower (by norm_num) (hdiv _)
    have hfirst := hnear (two_zpow_le_div_of_one_le hnq)
    have hexp : 308 + (e.natAbs - 308) = e.natAbs := by omega
    have hsplit : (n : ℚ) / 10 ^ 308 / 10 ^ (e.natAbs - 308) = n / 10 ^ e.natAbs := by
      rw [div_div, ← pow_add, hexp]
    obtain ⟨q', hq', hnegative', heq', hnear'⟩ :=
      hfirst.exists_quotient hpower' (by norm_num) (hsplit ▸ hdiv _)
    rw [scale_of_lt hdigits.shape hdigits.mantissa hsmall hmin, heq']
    rw [hsplit] at hnear'
    exact ⟨q', hq', hnegative', rfl, fun h => (hnear' h).near⟩

/-- A product in range is rounded three times. -/
theorem exists_scale_of_nonneg (hn : n ≠ 0) (hlt : n < 2 ^ 64) (he : 0 ≤ e) (hmax : e ≤ 308)
    (hrange : ∀ p p', Computes (UInt64.ofNat n).toFloat p 1 n →
      Computes (powerOfTen e.toNat) p' 1 (10 ^ e.toNat) →
        p.magnitude * p'.magnitude < 2 ^ 1024 - 2 ^ 970) :
    ∃ p : Finite, p.Bounded ∧ p.negative = false ∧
      scale (UInt64.ofNat n).toFloat e = some p.toFloat ∧ Near 5 p.magnitude (n * 10 ^ e) := by
  have hdigits := Computes.ofNat hn hlt
  obtain ⟨p, hpower⟩ := computes_powerOfTen (k := e.toNat) (by omega)
  have hnear := hdigits.near_mul hpower
  have hmin : (2 : ℚ) ^ (-1024 : ℤ) ≤ (Finite.nearest false n).magnitude * p.magnitude := by
    have hone : (1 : ℚ) ≤ n * 10 ^ e.toNat :=
      one_le_mul_of_one_le_of_one_le (by exact_mod_cast Nat.one_le_iff_ne_zero.2 hn)
        (one_le_pow_ten _)
    have hsmall : (2 : ℚ) ^ (-1024 : ℤ) ≤ 2 ^ (-1 : ℤ) :=
      zpow_le_zpow_right₀ (by norm_num) (by norm_num)
    have hhalf : (2 : ℚ) ^ (-1 : ℤ) ≤ drift ^ (1 + 1) := by norm_num [drift]
    refine (hsmall.trans (hhalf.trans ?_)).trans hnear.right
    exact le_mul_of_one_le_left (by norm_num [drift]) hone
  have hproduct := Computes.nearest hmin (hrange _ _ hdigits hpower) hnear
  rw [← hdigits.mul_eq hpower] at hproduct
  rw [mul_zpow_of_nonneg he, scale_of_nonneg he hmax hproduct.shape]
  refine ⟨_, Finite.bounded_of_shape hproduct.shape, hproduct.negative, ?_, ?_⟩
  · rw [Finite.toFloat_of_shape hproduct.shape]
  · exact hproduct.near.mono (Finite.magnitude_pos hproduct.mantissa) hproduct.pos (by norm_num)

end TreeScript.Document
