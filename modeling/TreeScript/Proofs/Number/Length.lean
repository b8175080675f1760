import TreeScript.Proofs.Number.Nearest
import TreeScript.Proofs.Number.Parts

/-!
# How long shortest decimals are

A grid that is as fine as half the distance of two numbers has a point in the interval of
each (`Finite.isSome_onGrid`). So the scan for the shortest decimal ends on this grid or
on a coarser one (`Finite.le_exponent_shortest`), and what it finds has few digits
(`Finite.significand_shortest_lt`).
-/

namespace TreeScript.Number

namespace Finite

variable {x : Finite}

/-- A point of a grid is below the number if it is so in quarters. -/
theorem point_le_magnitude_iff (x : Finite) (k : ℤ) (point : ℕ) :
    (point : ℚ) * 10 ^ k ≤ x.magnitude ↔
      point * (Nat.pow 2 (2 - x.exponent).toNat * Nat.pow 10 k.toNat) ≤
        x.centre * (Nat.pow 2 (x.exponent - 2).toNat * Nat.pow 10 (-k).toNat) := by
  have hunit : 0 < Nat.pow 2 (x.exponent - 2).toNat * Nat.pow 10 (-k).toNat :=
    Nat.mul_pos (Nat.pow_pos (by omega)) (Nat.pow_pos (by omega))
  have hunitq : (0 : ℚ) < (Nat.pow 2 (x.exponent - 2).toNat * Nat.pow 10 (-k).toNat : ℕ) := by
    exact_mod_cast hunit
  have hcentre : (x.centre : ℚ) = 4 * x.mantissa := by
    unfold centre
    push_cast
    ring
  rw [magnitude, ← div_le_iff₀ (by positivity), ← mul_le_mul_iff_right₀ (by norm_num : (0 : ℚ) < 4),
    quarters_point, ← hcentre, div_le_iff₀ hunitq]
  norm_cast

/-- A grid is not passed over if it has a point that reads back. The number is between this
point and one of the two that are tried. -/
theorem isSome_onGrid_of_holds (hx : x.mantissa ≠ 0) (tie : Tie) {k : ℤ} {n : ℕ}
    (h : x.Holds (n * 10 ^ k)) : (x.onGrid tie k).isSome := by
  have hstep : 0 < Nat.pow 2 (2 - x.exponent).toNat * Nat.pow 10 k.toNat :=
    Nat.mul_pos (Nat.pow_pos (by omega)) (Nat.pow_pos (by omega))
  have hreaches := x.reaches_point_iff k
  have hle := x.point_le_magnitude_iff k
  unfold onGrid
  dsimp only
  generalize Nat.pow 2 (x.exponent - 2).toNat * Nat.pow 10 (-k).toNat = unit at hreaches hle
  generalize Nat.pow 2 (2 - x.exponent).toNat * Nat.pow 10 k.toNat = step at hstep hreaches hle
  have hbelow := (hle (x.centre * unit / step)).2 (Nat.div_mul_le_self _ _)
  have habove : x.magnitude ≤ (x.centre * unit / step + 1 : ℕ) * 10 ^ k := by
    refine (not_le.1 fun habove => ?_).le
    refine absurd ((hle _).1 habove) (not_le.2 ?_)
    rw [Nat.mul_comm _ step]
    exact Nat.lt_mul_div_succ _ hstep
  generalize x.centre * unit / step = below at hbelow habove
  have hgrid : ∀ {a b : ℕ}, a ≤ b → (a : ℚ) * 10 ^ k ≤ b * 10 ^ k := fun hab =>
    mul_le_mul_of_nonneg_right (by exact_mod_cast hab) (by positivity)
  have hreads : x.reaches (below * step) unit = true ∨
      x.reaches ((below + 1) * step) unit = true := by
    rw [hreaches, hreaches]
    rcases Nat.lt_or_ge below n with hlt | hge
    · exact .inr ((holds_magnitude hx).between h habove (hgrid hlt))
    · exact .inl (h.between (holds_magnitude hx) (hgrid hge) hbelow)
  split
  · rename_i h h'
    rw [h, h'] at hreads
    simp at hreads
  · rfl
  · rfl
  · split
    · rfl
    · split
      · rfl
      · cases tie <;> rfl

/-- A grid as fine as half the last place has a point that reads back. -/
theorem isSome_onGrid (hx : x.mantissa ≠ 0) (tie : Tie) {k : ℤ}
    (hk : (10 : ℚ) ^ k ≤ 2 ^ (x.exponent - 1)) : (x.onGrid tie k).isSome := by
  have hgrid : (0 : ℚ) < 10 ^ k := by positivity
  have hunit : (0 : ℚ) < 2 ^ x.exponent := by positivity
  -- the first point above the number is less than half of the last place away
  have habove : x.magnitude ≤ ⌈x.magnitude / 10 ^ k⌉₊ * 10 ^ k :=
    (div_le_iff₀ hgrid).1 (Nat.le_ceil _)
  have hhalf : (⌈x.magnitude / 10 ^ k⌉₊ : ℚ) * 10 ^ k < x.magnitude + 2 ^ x.exponent / 2 := by
    have hceil := Nat.ceil_lt_add_one (div_nonneg (magnitude_pos hx).le hgrid.le)
    rw [← lt_div_iff₀ hgrid, add_div]
    rw [zpow_sub_one₀ two_ne_zero, ← div_eq_mul_inv] at hk
    exact hceil.trans_le (add_le_add_right ((one_le_div hgrid).2 hk) _)
  refine isSome_onGrid_of_holds hx tie (n := ⌈x.magnitude / 10 ^ k⌉₊) ?_
  generalize (⌈x.magnitude / 10 ^ k⌉₊ : ℚ) * 10 ^ k = point at habove hhalf
  have hlow : (x.mantissa : ℚ) ≤ point / 2 ^ x.exponent := (le_div_iff₀ hunit).2 habove
  have hhigh : point / 2 ^ x.exponent < x.mantissa + 1 / 2 := by
    rw [magnitude] at hhalf
    exact (div_lt_iff₀ hunit).2 (by linarith)
  have hlower : (x.lower : ℚ) < 4 * x.mantissa := by
    rw [cast_lower hx]
    split <;> linarith
  have hupper := x.cast_upper
  unfold Holds
  split
  · exact ⟨by linarith, by linarith⟩
  · exact ⟨by linarith, by linarith⟩

theorem le_exponent_scan {tie : Tie} {k : ℤ} (hk : x.finest < k → (x.onGrid tie k).isSome) :
    ∀ steps : ℕ, k ≤ x.finest + steps → k ≤ (x.scan tie steps).exponent
  | 0, h => h.trans (add_zero _).le
  | steps + 1, h => by
    rw [scan]
    split
    · exact_mod_cast h
    · rename_i hnone
      refine le_exponent_scan hk steps ?_
      rcases h.lt_or_eq with hlt | rfl
      · push_cast at hlt
        omega
      -- the scan does not go past a grid with a hit
      · have hsome := hk (by omega)
        push_cast at hsome
        rw [hnone] at hsome
        cases hsome

/-- The scan starts on a grid that is coarse enough. -/
theorem le_coarsest_of_le {k : ℤ}
    (hbits : (10 : ℚ) ^ k ≤ 2 ^ ((x.mantissa.log2 : ℤ) + 1 + x.exponent)) : k ≤ x.coarsest := by
  unfold coarsest
  dsimp only
  generalize (x.mantissa.log2 : ℤ) + 1 + x.exponent = bits at hbits
  rcases le_or_gt k 0 with hneg | hpos
  · obtain ⟨n, rfl⟩ : ∃ n : ℕ, k = -n := ⟨(-k).toNat, by omega⟩
    have hcube : (2 : ℚ) ^ (10 * (-n : ℤ)) ≤ 2 ^ (bits * 3) := by
      rw [zpow_mul (2 : ℚ) bits, zpow_mul]
      calc ((2 : ℚ) ^ (10 : ℤ)) ^ (-n : ℤ) ≤ (10 ^ (3 : ℤ)) ^ (-n : ℤ) := by
            rw [zpow_neg, zpow_neg, zpow_natCast, zpow_natCast]
            gcongr
            norm_num
        _ = (10 ^ (-n : ℤ)) ^ (3 : ℤ) := by rw [← zpow_mul, ← zpow_mul, mul_comm]
        _ ≤ (2 ^ bits) ^ (3 : ℤ) := zpow_le_zpow_left₀ (by norm_num) (by positivity) hbits
    have hle := (zpow_le_zpow_iff_right₀ (by norm_num)).1 hcube
    split <;> omega
  · obtain ⟨n, rfl⟩ : ∃ n : ℕ, k = n := ⟨k.toNat, by omega⟩
    have height : (2 : ℚ) ^ (3 * (n : ℤ)) ≤ 2 ^ bits := by
      refine le_trans ?_ hbits
      rw [zpow_mul, zpow_natCast, zpow_natCast]
      gcongr
      norm_num
    have hle := (zpow_le_zpow_iff_right₀ (by norm_num)).1 height
    split <;> omega

theorem le_coarsest {k : ℤ} (hk : (10 : ℚ) ^ k ≤ 2 ^ (x.exponent - 1)) : k ≤ x.coarsest :=
  le_coarsest_of_le (hk.trans (zpow_le_zpow_right₀ (by norm_num) (by omega)))

/-- A shortest decimal ends on a grid as fine as half the last place, or before it. -/
theorem le_exponent_shortest (hx : x.mantissa ≠ 0) (tie : Tie) {k : ℤ}
    (hk : (10 : ℚ) ^ k ≤ 2 ^ (x.exponent - 1)) : k ≤ (x.shortest tie).exponent := by
  have hle := le_coarsest hk
  rw [shortest, if_neg hx]
  exact le_exponent_scan (fun _ => isSome_onGrid hx tie hk) _ (by omega)

theorem value_shortest_le (hx : x.mantissa ≠ 0) (tie : Tie) :
    (x.shortest tie).value ≤ (x.mantissa + 1 / 2) * 2 ^ x.exponent := by
  have hle := (abs_le.1 ((holds_shortest hx tie).abs_sub_le hx)).2
  rw [magnitude] at hle
  linarith

/-- Shortest decimals have at most eighteen digits. -/
theorem significand_shortest_lt (h : x.Canonical) (hx : x.mantissa ≠ 0) (tie : Tie) :
    (x.shortest tie).significand < 10 * 2 ^ 54 := by
  have hlog : (10 : ℚ) ^ Int.log 10 ((2 : ℚ) ^ (x.exponent - 1)) ≤ 2 ^ (x.exponent - 1) := by
    exact_mod_cast Int.zpow_log_le_self (b := 10) (by norm_num)
      (by positivity : (0 : ℚ) < 2 ^ (x.exponent - 1))
  have hlog' : (2 : ℚ) ^ (x.exponent - 1) < 10 ^ Int.log 10 ((2 : ℚ) ^ (x.exponent - 1)) * 10 := by
    rw [← zpow_add_one₀ (by norm_num)]
    exact_mod_cast Int.lt_zpow_succ_log_self (b := 10) (by norm_num) ((2 : ℚ) ^ (x.exponent - 1))
  have hexp := le_exponent_shortest hx tie hlog
  generalize Int.log 10 ((2 : ℚ) ^ (x.exponent - 1)) = k at hlog hlog' hexp
  have hgrid : (10 : ℚ) ^ k ≤ 10 ^ (x.shortest tie).exponent :=
    zpow_le_zpow_right₀ (by norm_num) hexp
  have hm : (x.mantissa : ℚ) + 1 ≤ 2 ^ 53 := by exact_mod_cast h.lt
  have hdouble : (2 : ℚ) ^ x.exponent = 2 * 2 ^ (x.exponent - 1) := by
    rw [← zpow_one_add₀ two_ne_zero, add_sub_cancel]
  have hpos : (0 : ℚ) < 10 ^ k := by positivity
  have hlt : ((x.shortest tie).significand : ℚ) * 10 ^ k < (10 * 2 ^ 54 : ℕ) * 10 ^ k := by
    calc ((x.shortest tie).significand : ℚ) * 10 ^ k
        ≤ (x.shortest tie).value := by
          unfold Decimal.value
          gcongr
      _ ≤ (x.mantissa + 1 / 2) * 2 ^ x.exponent := value_shortest_le hx tie
      _ < 2 ^ 53 * 2 ^ x.exponent := by
          gcongr
          linarith
      _ = 2 ^ 54 * 2 ^ (x.exponent - 1) := by
          rw [hdouble]
          ring
      _ < 2 ^ 54 * (10 ^ k * 10) := by gcongr
      _ = (10 * 2 ^ 54 : ℕ) * 10 ^ k := by
          push_cast
          ring
  exact_mod_cast (mul_lt_mul_iff_left₀ hpos).1 hlt

theorem neg_324_le_exponent_shortest (h : x.Canonical) (hx : x.mantissa ≠ 0) (tie : Tie) :
    -324 ≤ (x.shortest tie).exponent := by
  refine le_exponent_shortest hx tie ?_
  have hpower : (2 : ℚ) ^ 1075 ≤ 10 ^ 324 := by
    have hnat : 2 ^ 1075 ≤ 10 ^ 324 := by decide +kernel
    exact_mod_cast hnat
  have hmin : (2 : ℚ) ^ (-1075 : ℤ) ≤ 2 ^ (x.exponent - 1) :=
    zpow_le_zpow_right₀ (by norm_num) (by linarith [h.min])
  have hten : (10 : ℚ) ^ (-324 : ℤ) = (10 ^ 324)⁻¹ := zpow_neg 10 324
  have htwo : (2 : ℚ) ^ (-1075 : ℤ) = (2 ^ 1075)⁻¹ := zpow_neg 2 1075
  rw [htwo] at hmin
  rw [hten]
  exact (inv_anti₀ (by positivity) hpower).trans hmin

theorem exponent_shortest_le_308 (h : x.Bounded) (hx : x.mantissa ≠ 0) (tie : Tie) :
    (x.shortest tie).exponent ≤ 308 := by
  have hsignificand : (1 : ℚ) ≤ (x.shortest tie).significand := by
    exact_mod_cast significand_shortest_pos hx tie
  have hm : (x.mantissa : ℚ) + 1 ≤ 2 ^ 53 := by exact_mod_cast h.lt
  have htop : (2 : ℚ) ^ (1024 : ℤ) < 10 ^ (309 : ℤ) := by
    have hnat : 2 ^ 1024 < 10 ^ 309 := by decide +kernel
    exact_mod_cast hnat
  refine Int.lt_add_one_iff.1 ((zpow_lt_zpow_iff_right₀ (by norm_num : (1 : ℚ) < 10)).1 ?_)
  calc (10 : ℚ) ^ (x.shortest tie).exponent
      ≤ (x.shortest tie).value := le_mul_of_one_le_left (by positivity) hsignificand
    _ ≤ (x.mantissa + 1 / 2) * 2 ^ x.exponent := value_shortest_le hx tie
    _ ≤ 2 ^ (53 : ℤ) * 2 ^ (971 : ℤ) := by
      refine mul_le_mul ?_ (zpow_le_zpow_right₀ (by norm_num) h.max) (by positivity) (by positivity)
      norm_num at hm ⊢
      linarith
    _ = 2 ^ (1024 : ℤ) := (zpow_add₀ two_ne_zero 53 971).symm
    _ < 10 ^ (309 : ℤ) := htop

end Finite

end TreeScript.Number
