import TreeScript.Proofs.Number.Drift

/-!
# Finite results

A number is finite if it has parts (`isFinite_iff_exists_shape`). Natural numbers of 64 bits
are, and so are the negations and the quotients by a divisor of at least one
(`isFinite_toFloat`, `isFinite_neg`, `isFinite_div`). A product of two finite numbers is
either finite or infinite and never something else (`isFinite_mul`).
-/

open Float.Model UnpackedFloat

namespace TreeScript.Number

variable {x y : Float} {p p' : Finite}

theorem isFinite_iff_exists_shape (x : Float) : x.isFinite ↔ ∃ p, shape x = .finite p := by
  refine (isFinite_iff x).trans ⟨fun h => ?_, ?_⟩
  · have hfield : ¬x.toBits.toNat / Nat.pow 2 52 % Nat.pow 2 11 = 2047 := h
    unfold shape
    dsimp only
    rw [if_neg hfield]
    split <;> exact ⟨_, rfl⟩
  · rintro ⟨p, hp⟩ (hfield : x.toBits.toNat / Nat.pow 2 52 % Nat.pow 2 11 = 2047)
    unfold shape at hp
    dsimp only at hp
    rw [if_pos hfield] at hp
    split at hp <;> cases hp

theorem isFinite_of_bounded (h : p.Bounded) : p.toFloat.isFinite :=
  (isFinite_iff_exists_shape _).2 ⟨p, Finite.shape_toFloat h⟩

namespace Finite

/-- The largest number is half a place below what is rounded to infinity. -/
theorem Bounded.magnitude_lt (h : p.Bounded) : p.magnitude < 2 ^ 1024 - 2 ^ 970 := by
  have hm : (p.mantissa : ℚ) ≤ 2 ^ 53 - 1 := by
    have := h.lt
    have hnat : p.mantissa + 1 ≤ 2 ^ 53 := this
    have hcast : (p.mantissa : ℚ) + 1 ≤ 2 ^ 53 := by exact_mod_cast hnat
    linarith
  have he : (2 : ℚ) ^ p.exponent ≤ 2 ^ (971 : ℤ) := zpow_le_zpow_right₀ (by norm_num) h.max
  have htop : ((2 : ℚ) ^ 53 - 1) * 2 ^ (971 : ℤ) < 2 ^ 1024 - 2 ^ 970 := by
    have hpow : (2 : ℚ) ^ (971 : ℤ) = 2 * 2 ^ 970 := zpow_one_add₀ two_ne_zero 970
    have hbig : (2 : ℚ) ^ 1024 = 2 ^ 54 * 2 ^ 970 := pow_add 2 54 970
    have hpos : (0 : ℚ) < 2 ^ 970 := by positivity
    rw [hpow, hbig]
    generalize (2 : ℚ) ^ 970 = unit at hpos
    linarith
  exact (mul_le_mul hm he (by positivity) (by norm_num)).trans_lt htop

/-- Parts beyond the largest number are packed to infinity. -/
theorem isInf_toFloat_of_lt (h : p.Canonical) (he : 971 < p.exponent) : p.toFloat.isInf := by
  have hm : p.mantissa ≠ 0 := by
    have := h.normal
    omega
  have hpack : UnpackedFloat.pack Format.binary64 p.unpacked =
      UnpackedFloat.pack Format.binary64 (.infinity (sign p.negative)) := by
    have hwide : 2048 ≤ (p.exponent + 1023 + 52).toNat + 1 := by omega
    unfold unpacked
    rw [dif_neg hm]
    exact if_pos hwide
  have hall : ∀ negative, (Float.ofModel (.pack (.infinity (sign negative)))).isInf := by
    decide +kernel
  have hsame : p.toFloat = Float.ofModel (.pack (.infinity (sign p.negative))) :=
    eq_of_toBits_eq (UInt64.toBitVec_inj.1 hpack)
  rw [hsame]
  exact hall p.negative

end Finite

theorem isFinite_toFloat (n : UInt64) : n.toFloat.isFinite := by
  by_cases hn : n.toNat = 0
  · obtain rfl : n = 0 := UInt64.toNat_inj.1 hn
    decide +kernel
  · rw [← UInt64.ofNat_toNat (x := n), toFloat_ofNat hn n.toNat_lt]
    have hlt : (n.toNat : ℚ) < 2 ^ 64 := by exact_mod_cast n.toNat_lt
    have hpos : (0 : ℚ) < n.toNat := by exact_mod_cast Nat.pos_of_ne_zero hn
    exact isFinite_of_bounded
      (Finite.bounded_nearest false hpos (Computes.lt_top_of_lt (hlt.trans (by norm_num))))

theorem isFinite_zero (s : Sign) : (Float.ofModel (.pack (.zero s))).isFinite := by
  cases s <;> decide +kernel

theorem isFinite_neg (h : x.isFinite) : (-x).isFinite := by
  obtain ⟨p, hp⟩ := (isFinite_iff_exists_shape x).1 h
  have hbounded := Finite.bounded_of_shape hp
  rw [← Finite.toFloat_of_shape hp, neg_toFloat hbounded]
  exact isFinite_of_bounded (hbounded.signed _)

theorem isFinite_div (h : x.isFinite) (hy : shape y = .finite p') (hone : 1 ≤ p'.magnitude) :
    (x / y).isFinite := by
  obtain ⟨p, hp⟩ := (isFinite_iff_exists_shape x).1 h
  have hp' : p'.mantissa ≠ 0 := by
    intro hzero
    rw [Finite.magnitude, hzero] at hone
    norm_num at hone
  by_cases hm : p.mantissa = 0
  · have hzero : x / y = Float.ofModel (.pack (.zero (Finite.sign p.negative /
        Finite.sign p'.negative))) := by
      show Float.ofModel (.pack (UnpackedFloat.div _ x.toModel.unpack y.toModel.unpack)) = _
      rw [unpack_of_shape hp, unpack_of_shape hy, Finite.unpacked, Finite.unpacked, dif_pos hm,
        dif_neg hp']
      rfl
    rw [hzero]
    exact isFinite_zero _
  · have hpos := Finite.magnitude_pos hm
    rw [div_eq hp hy hm hp']
    refine isFinite_of_bounded (Finite.bounded_nearest _ (by positivity) ?_)
    exact (div_le_self hpos.le hone).trans_lt (Finite.bounded_of_shape hp).magnitude_lt

theorem isFinite_mul (hx : x.isFinite) (hy : shape y = .finite p') (hp' : p'.mantissa ≠ 0)
    (hfinite : (x * y).isInf = false) : (x * y).isFinite := by
  obtain ⟨p, hp⟩ := (isFinite_iff_exists_shape x).1 hx
  by_cases hm : p.mantissa = 0
  · have hzero : x * y = Float.ofModel (.pack (.zero (Finite.sign p.negative *
        Finite.sign p'.negative))) := by
      show Float.ofModel (.pack (UnpackedFloat.mul _ x.toModel.unpack y.toModel.unpack)) = _
      rw [unpack_of_shape hp, unpack_of_shape hy, Finite.unpacked, Finite.unpacked, dif_pos hm,
        dif_neg hp']
      rfl
    rw [hzero]
    exact isFinite_zero _
  · have hpos := Finite.magnitude_pos hm
    have hpos' := Finite.magnitude_pos hp'
    have hcanonical := Finite.canonical_nearest (p.negative != p'.negative) (mul_pos hpos hpos')
    rw [mul_eq hp hy hm hp'] at hfinite ⊢
    refine isFinite_of_bounded ⟨hcanonical, not_lt.1 fun he => ?_⟩
    rw [Finite.isInf_toFloat_of_lt hcanonical he] at hfinite
    cases hfinite

end TreeScript.Number
