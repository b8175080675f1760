import TreeScript.Proofs.Number.Length
import TreeScript.Proofs.Number.Parts

/-!
# How far rounding drifts

Rounding takes a rational of usual size to one of nearly the same size, up to a factor of
`drift` (`Finite.near_nearest`). Such factors add up over products and quotients of
rounded numbers (`Near.mul`, `Near.div`).
-/

namespace TreeScript.Number

/-- The factor by which one rounding makes a rational smaller at most. It leaves room for
the few digits that are missing below `2 ^ (-1022)`. -/
def drift : ℚ :=
  1 - 1 / 2 ^ 51

theorem drift_pos : 0 < drift := by
  norm_num [drift]

/-- Two rationals are at most `n` roundings apart. -/
structure Near (n : ℕ) (a b : ℚ) : Prop where
  left : a * drift ^ n ≤ b
  right : b * drift ^ n ≤ a

namespace Near

variable {m n : ℕ} {a b c d : ℚ}

theorem zero_iff : Near 0 a b ↔ a = b := by
  constructor
  · rintro ⟨hleft, hright⟩
    rw [pow_zero, mul_one] at hleft hright
    exact le_antisymm hleft hright
  · rintro rfl
    exact ⟨by simp, by simp⟩

theorem mono (ha : 0 < a) (hb : 0 < b) (h : Near m a b) (hmn : m ≤ n) : Near n a b := by
  have hle : drift ^ n ≤ drift ^ m :=
    pow_le_pow_of_le_one drift_pos.le (by norm_num [drift]) hmn
  exact ⟨(mul_le_mul_of_nonneg_left hle ha.le).trans h.left,
    (mul_le_mul_of_nonneg_left hle hb.le).trans h.right⟩

theorem trans (h : Near m a b) (h' : Near n b c) : Near (m + n) a c := by
  have hpos := drift_pos
  constructor
  · rw [pow_add, ← mul_assoc]
    exact (mul_le_mul_of_nonneg_right h.left (by positivity)).trans h'.left
  · rw [pow_add, mul_comm (drift ^ m), ← mul_assoc]
    exact (mul_le_mul_of_nonneg_right h'.right (by positivity)).trans h.right

theorem mul (ha : 0 < a) (hb : 0 < b) (hc : 0 < c) (hd : 0 < d) (h : Near m a b)
    (h' : Near n c d) : Near (m + n) (a * c) (b * d) := by
  have hpos := drift_pos
  constructor
  · rw [pow_add, mul_mul_mul_comm]
    exact mul_le_mul h.left h'.left (by positivity) hb.le
  · rw [pow_add, mul_mul_mul_comm]
    exact mul_le_mul h.right h'.right (by positivity) ha.le

theorem inv (ha : 0 < a) (hb : 0 < b) (h : Near n a b) : Near n a⁻¹ b⁻¹ := by
  constructor
  · rw [← div_eq_inv_mul, div_le_iff₀ ha, ← div_eq_inv_mul, le_div_iff₀ hb, mul_comm]
    exact h.right
  · rw [← div_eq_inv_mul, div_le_iff₀ hb, ← div_eq_inv_mul, le_div_iff₀ ha, mul_comm]
    exact h.left

theorem div (ha : 0 < a) (hb : 0 < b) (hc : 0 < c) (hd : 0 < d) (h : Near m a b)
    (h' : Near n c d) : Near (m + n) (a / c) (b / d) := by
  rw [div_eq_mul_inv, div_eq_mul_inv]
  exact h.mul ha hb (inv_pos.2 hc) (inv_pos.2 hd) (h'.inv hc hd)

/-- A small distance is a rounding. -/
theorem of_abs_sub_le (hb : 0 < b) (h : |a - b| ≤ b / 2 ^ 51) : Near 1 a b := by
  obtain ⟨hlower, hupper⟩ := abs_le.1 h
  rw [div_eq_mul_one_div] at hlower hupper
  constructor
  · calc a * drift ^ 1 ≤ (b + b * (1 / 2 ^ 51)) * drift ^ 1 := by
          have hpos := drift_pos
          gcongr
          linarith
      _ = b * (1 - (1 / 2 ^ 51) ^ 2) := by
          unfold drift
          ring
      _ ≤ b := mul_le_of_le_one_right hb.le (by norm_num)
  · calc b * drift ^ 1 = b - b * (1 / 2 ^ 51) := by
          unfold drift
          ring
      _ ≤ a := by linarith

theorem abs_sub_le (hb : 0 < b) (h : Near 6 a b) : |a - b| ≤ b / 2 ^ 48 := by
  have hsix : 1 - 1 / 2 ^ 48 ≤ drift ^ 6 := by norm_num [drift]
  have hsix' : 1 ≤ drift ^ 6 * (1 + 1 / 2 ^ 48) := by norm_num [drift]
  have hpos := drift_pos
  have ha : 0 < a := (mul_pos hb (by positivity)).trans_le h.right
  refine abs_le.2 ⟨?_, ?_⟩
  · have := (mul_le_mul_of_nonneg_left hsix hb.le).trans h.right
    linarith
  · have hle : a ≤ b * (1 + 1 / 2 ^ 48) := calc
      a ≤ a * (drift ^ 6 * (1 + 1 / 2 ^ 48)) := le_mul_of_one_le_right ha.le hsix'
      _ = a * drift ^ 6 * (1 + 1 / 2 ^ 48) := (mul_assoc _ _ _).symm
      _ ≤ b * (1 + 1 / 2 ^ 48) := mul_le_mul_of_nonneg_right h.left (by norm_num)
    linarith

end Near

namespace Finite

variable {x : Finite} {q : ℚ}

theorem negative_nearest (negative : Bool) (q : ℚ) : (nearest negative q).negative = negative := by
  unfold nearest
  dsimp only
  split <;> rfl

/-- Moving up does not change what a number stands for. -/
theorem magnitude_nearest_eq (negative : Bool) (hq : 0 < q) :
    (nearest negative q).magnitude = nearestNat (q / 2 ^ place q) * 2 ^ place q := by
  have hle := nearestNat_le hq
  unfold nearest
  dsimp only
  split
  · rfl
  · rename_i hbig
    obtain heq : nearestNat (q / 2 ^ place q) = 2 ^ 53 := by omega
    rw [heq, magnitude, zpow_add_one₀ two_ne_zero]
    push_cast
    ring

/-- A number next to a rational is at most half of the last place away. -/
theorem abs_magnitude_nearest_sub_le (negative : Bool) (hq : 0 < q) :
    |(nearest negative q).magnitude - q| ≤ 2 ^ place q / 2 := by
  have hnear := (isNearest_place hq).1
  have hunit : (0 : ℚ) < 2 ^ place q := by positivity
  have hsplit : (nearest negative q).magnitude - q =
      -((q / 2 ^ place q - nearestNat (q / 2 ^ place q)) * 2 ^ place q) := by
    rw [magnitude_nearest_eq negative hq, sub_mul, div_mul_cancel₀ _ hunit.ne']
    ring
  rw [hsplit, abs_neg, abs_mul, abs_of_pos hunit]
  linarith [mul_le_mul_of_nonneg_right hnear hunit.le]

/-- The last place is small beside the number, down to the least place of all. -/
theorem two_zpow_place_le (hq : 0 < q) : 2 ^ place q ≤ max (q / 2 ^ 52) (2 ^ (-1074 : ℤ)) := by
  rcases le_total (Int.log 2 q - 52) (-1074) with hle | hle
  · rw [place, max_eq_right hle]
    exact le_max_right _ _
  · have hlog : (2 : ℚ) ^ Int.log 2 q ≤ q := by
      exact_mod_cast Int.zpow_log_le_self (b := 2) (by norm_num) hq
    rw [place, max_eq_left hle, zpow_sub₀ two_ne_zero]
    exact (div_le_div_of_nonneg_right hlog (by positivity)).trans (le_max_left _ _)

/-- A number next to a rational of usual size is a rounding away. -/
theorem near_nearest (negative : Bool) (h : 2 ^ (-1024 : ℤ) ≤ q) :
    Near 1 (nearest negative q).magnitude q := by
  have hq : 0 < q := lt_of_lt_of_le (by positivity) h
  have hplace : (2 : ℚ) ^ place q ≤ q / 2 ^ 50 := by
    refine (two_zpow_place_le hq).trans (max_le ?_ ?_)
    · exact div_le_div_of_nonneg_left hq.le (by positivity) (by norm_num)
    · have hsplit : (2 : ℚ) ^ (-1024 : ℤ) = 2 ^ (-1074 : ℤ) * 2 ^ 50 :=
        zpow_add₀ two_ne_zero (-1074) 50
      rwa [le_div_iff₀ (by positivity), ← hsplit]
  refine Near.of_abs_sub_le hq ((abs_magnitude_nearest_sub_le negative hq).trans ?_)
  linarith

/-- A rational down to the least number of all does not become zero. -/
theorem mantissa_nearest_ne_zero (negative : Bool) (h : 2 ^ (-1074 : ℤ) ≤ q) :
    (nearest negative q).mantissa ≠ 0 := by
  have hq : 0 < q := lt_of_lt_of_le (by positivity) h
  intro hzero
  have hmagnitude : (nearest negative q).magnitude = 0 := by
    rw [magnitude, hzero, Nat.cast_zero, zero_mul]
  have hsub := abs_magnitude_nearest_sub_le negative hq
  rw [hmagnitude, zero_sub, abs_neg, abs_of_pos hq] at hsub
  have hplace : (2 : ℚ) ^ place q ≤ q :=
    (two_zpow_place_le hq).trans (max_le (div_le_self hq.le (by norm_num)) h)
  linarith

/-- The rationals that a number is next to are a rounding away. -/
theorem Holds.near (hx : 2 ^ 52 ≤ x.mantissa) (h : x.Holds q) : Near 1 q x.magnitude := by
  have hmantissa : (2 : ℚ) ^ 52 ≤ x.mantissa := by exact_mod_cast hx
  have hunit : (0 : ℚ) < 2 ^ x.exponent := by positivity
  have hpos : 0 < x.magnitude := mul_pos (by linarith) hunit
  refine Near.of_abs_sub_le hpos ((h.abs_sub_le (by omega)).trans ?_)
  rw [le_div_iff₀ (by norm_num), magnitude]
  nlinarith

end Finite

/-! ## Computed numbers -/

/-- A positive number at most `n` roundings away from a rational. -/
structure Computes (x : Float) (p : Finite) (n : ℕ) (a : ℚ) : Prop where
  shape : shape x = .finite p
  negative : p.negative = false
  mantissa : p.mantissa ≠ 0
  near : Near n p.magnitude a

namespace Computes

variable {x y : Float} {p p' : Finite} {m n : ℕ} {a b : ℚ}

theorem pos (h : Computes x p n a) : 0 < a :=
  (mul_pos (Finite.magnitude_pos h.mantissa) (pow_pos drift_pos n)).trans_le h.near.left

theorem mul_eq (h : Computes x p m a) (h' : Computes y p' n b) :
    x * y = (Finite.nearest false (p.magnitude * p'.magnitude)).toFloat := by
  rw [Number.mul_eq h.shape h'.shape h.mantissa h'.mantissa, h.negative, h'.negative]
  rfl

theorem div_eq (h : Computes x p m a) (h' : Computes y p' n b) :
    x / y = (Finite.nearest false (p.magnitude / p'.magnitude)).toFloat := by
  rw [Number.div_eq h.shape h'.shape h.mantissa h'.mantissa, h.negative, h'.negative]
  rfl

theorem near_mul (h : Computes x p m a) (h' : Computes y p' n b) :
    Near (m + n) (p.magnitude * p'.magnitude) (a * b) :=
  h.near.mul (Finite.magnitude_pos h.mantissa) h.pos (Finite.magnitude_pos h'.mantissa) h'.pos
    h'.near

theorem near_div (h : Computes x p m a) (h' : Computes y p' n b) :
    Near (m + n) (p.magnitude / p'.magnitude) (a / b) :=
  h.near.div (Finite.magnitude_pos h.mantissa) h.pos (Finite.magnitude_pos h'.mantissa) h'.pos
    h'.near

/-- A number next to a rational in range is a rounding away from it. -/
theorem nearest {q : ℚ} (hmin : 2 ^ (-1024 : ℤ) ≤ q) (hmax : q < 2 ^ 1024 - 2 ^ 970)
    (hnear : Near n q a) :
    Computes (Finite.nearest false q).toFloat (Finite.nearest false q) (n + 1) a := by
  have hq : 0 < q := lt_of_lt_of_le (by positivity) hmin
  refine ⟨Finite.shape_toFloat (Finite.bounded_nearest false hq hmax),
    Finite.negative_nearest false q, Finite.mantissa_nearest_ne_zero false ?_, ?_⟩
  · exact (zpow_le_zpow_right₀ (by norm_num) (by norm_num)).trans hmin
  · rw [add_comm]
    exact (Finite.near_nearest false hmin).trans hnear

/-- The size of a number's digits is far from the largest numbers. -/
theorem lt_top_of_lt {q : ℚ} (h : q < 2 ^ 65) : q < 2 ^ 1024 - 2 ^ 970 := by
  have hsplit : (2 : ℚ) ^ 1024 = 2 ^ 54 * 2 ^ 970 := pow_add 2 54 970
  have hbig : (2 : ℚ) ^ 65 ≤ 2 ^ 970 := pow_le_pow_right₀ (by norm_num) (by norm_num)
  rw [hsplit]
  generalize (2 : ℚ) ^ 970 = unit at hbig ⊢
  linarith

/-- A quotient of small size is in range. -/
theorem exists_quotient (h : Computes x p m a) (h' : Computes y p' n b) (hmn : m + n ≤ 4)
    (hlt : a / b < 2 ^ 64) : ∃ q : Finite, q.Bounded ∧ q.negative = false ∧ x / y = q.toFloat ∧
      (2 ^ (-1024 : ℤ) ≤ a / b * drift ^ 4 → Computes (x / y) q (m + n + 1) (a / b)) := by
  have hquotient : 0 < p.magnitude / p'.magnitude :=
    div_pos (Finite.magnitude_pos h.mantissa) (Finite.magnitude_pos h'.mantissa)
  have hnear := (h.near_div h').mono hquotient (div_pos h.pos h'.pos) hmn
  have hmax : p.magnitude / p'.magnitude < 2 ^ 1024 - 2 ^ 970 := by
    have hhalf : 1 / 2 ≤ drift ^ 4 := by norm_num [drift]
    have hle := (mul_le_mul_of_nonneg_left hhalf hquotient.le).trans hnear.left
    exact lt_top_of_lt (by linarith)
  rw [h.div_eq h']
  refine ⟨_, Finite.bounded_nearest false hquotient hmax, Finite.negative_nearest false _, rfl,
    fun hmin => ?_⟩
  exact nearest (hmin.trans hnear.right) hmax (h.near_div h')

/-- A natural number is a rounding away, and none up to `2 ^ 53`. -/
theorem ofNat {n : ℕ} (hn : n ≠ 0) (hlt : n < 2 ^ 64) :
    Computes (UInt64.ofNat n).toFloat (Finite.nearest false n) 1 n := by
  have hone : (1 : ℚ) ≤ n := by exact_mod_cast Nat.one_le_iff_ne_zero.2 hn
  have hltq : (n : ℚ) < 2 ^ 64 := by exact_mod_cast hlt
  rw [toFloat_ofNat hn hlt]
  refine nearest ?_ ?_ (Near.zero_iff.2 rfl)
  · exact (zpow_le_one_of_nonpos₀ (by norm_num) (by norm_num)).trans hone
  · exact lt_top_of_lt (by linarith)

theorem ofNat_exact {n : ℕ} (hn : n ≠ 0) (hle : n ≤ 2 ^ 53) :
    Computes (UInt64.ofNat n).toFloat (Finite.nearest false n) 0 n := by
  obtain ⟨hshape, hnegative, hmantissa, -⟩ := ofNat hn (by omega)
  refine ⟨hshape, hnegative, hmantissa, ?_⟩
  rw [Finite.magnitude_nearest_natCast false hn hle]
  exact Near.zero_iff.2 rfl

end Computes

end TreeScript.Number
