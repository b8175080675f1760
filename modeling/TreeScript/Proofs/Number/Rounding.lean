import Mathlib
import TreeScript.Number.Finite

/-!
# Rounding

Arithmetic on numbers is rounded: a result is the number next to the exact one, and of
two the one with the even mantissa. `Finite.nearest` is that number, for a rational, and
the operations on unpacked numbers give it (`Finite.mul_unpacked`, `Finite.div_unpacked`,
`Finite.add_unpacked`, `Finite.ofNat_unpacked`).

A mantissa with two residual bits says where a rational stands among its neighbours
(`Tells`). Shifting keeps this up (`Tells.shiftRight`), so the digits that are left in the
end decide what is nearest (`roundWithAccuracy_eq`).
-/

open Float.Model UnpackedFloat

namespace TreeScript.Number

/-! ## The nearest natural number -/

/-- The natural number nearest to a positive rational, and of two the even one. -/
def nearestNat (q : ℚ) : ℕ :=
  let below := ⌊q⌋₊
  if q - below < 1 / 2 then below
  else if 1 / 2 < q - below then below + 1
  else below + below % 2

/-- A number at most a half away, and an even one if it is as far as that. -/
def IsNearest (n : ℕ) (q : ℚ) : Prop :=
  |q - n| ≤ 1 / 2 ∧ (|q - n| = 1 / 2 → n % 2 = 0)

theorem isNearest_nearestNat {q : ℚ} (hq : 0 ≤ q) : IsNearest (nearestNat q) q := by
  have hle : (⌊q⌋₊ : ℚ) ≤ q := Nat.floor_le hq
  have hlt : q < ⌊q⌋₊ + 1 := Nat.lt_floor_add_one q
  unfold nearestNat IsNearest
  dsimp only
  generalize ⌊q⌋₊ = below at hle hlt
  split
  · rw [abs_of_nonneg (by linarith)]
    exact ⟨by linarith, fun h => by linarith⟩
  · split
    · push_cast
      rw [abs_of_nonpos (by linarith)]
      exact ⟨by linarith, fun h => by linarith⟩
    · have htie : q = below + 1 / 2 := by linarith
      rcases Nat.mod_two_eq_zero_or_one below with hmod | hmod
      · rw [hmod, htie]
        norm_num [hmod]
      · rw [hmod, htie]
        push_cast
        norm_num
        omega

theorem IsNearest.unique {n n' : ℕ} {q : ℚ} (h : IsNearest n q) (h' : IsNearest n' q) :
    n = n' := by
  wlog hlt : n < n' generalizing n n'
  · rcases Nat.lt_trichotomy n n' with hlt' | heq | hgt
    · exact absurd hlt' hlt
    · exact heq
    · exact (this h' h hgt).symm
  -- both are a half away, and then both would be even
  obtain ⟨hle, heven⟩ := h
  obtain ⟨hle', heven'⟩ := h'
  have hcast : (n : ℚ) + 1 ≤ n' := by exact_mod_cast hlt
  have hlow := (abs_le.1 hle).2
  have hhigh := (abs_le.1 hle').1
  have hq : q = n + 1 / 2 := by linarith
  have hn' : (n' : ℚ) = n + 1 := by linarith
  have hn : n' = n + 1 := by exact_mod_cast hn'
  have h₁ := heven (by rw [hq]; norm_num)
  have h₂ := heven' (by rw [hq, hn']; norm_num)
  omega

theorem IsNearest.nearestNat_eq {n : ℕ} {q : ℚ} (h : IsNearest n q) (hq : 0 ≤ q) :
    nearestNat q = n :=
  (isNearest_nearestNat hq).unique h

/-! ## Mantissas with residual bits -/

/-- What a mantissa and its residual bits tell of a rational. -/
def Tells (em : ExtendedMantissa) (q : ℚ) : Prop :=
  match em.roundBit, em.stickyBit with
  | false, false => q = em.mantissa
  | false, true => em.mantissa < q ∧ q < em.mantissa + 1 / 2
  | true, false => q = em.mantissa + 1 / 2
  | true, true => em.mantissa + 1 / 2 < q ∧ q < em.mantissa + 1

namespace Tells

variable {em : ExtendedMantissa} {q : ℚ}

theorem floor (h : Tells em q) : (em.mantissa : ℚ) ≤ q ∧ q < em.mantissa + 1 := by
  obtain ⟨m, round, sticky⟩ := em
  cases round <;> cases sticky <;> simp only [Tells] at h <;> constructor <;> linarith

/-- Rounding the mantissa gives the nearest number. -/
theorem roundedMantissa (h : Tells em q) : IsNearest em.roundedMantissa q := by
  obtain ⟨m, round, sticky⟩ := em
  unfold IsNearest
  cases round <;> cases sticky <;>
    simp only [Tells, ExtendedMantissa.roundedMantissa, ExtendedMantissa.accuracy,
      Accuracy.roundToNearestEven] at h ⊢
  · rw [h]
    norm_num
  · rw [abs_of_pos (by linarith)]
    exact ⟨by linarith, fun h => by linarith⟩
  · rcases Nat.mod_two_eq_zero_or_one m with hmod | hmod
    · rw [hmod, h]
      norm_num [hmod]
    · rw [hmod, h]
      push_cast
      norm_num
      omega
  · push_cast
    rw [abs_of_neg (by linarith)]
    exact ⟨by linarith, fun h => by linarith⟩

theorem shiftRightOne (h : Tells em q) : Tells em.shiftRightOne (q / 2) := by
  obtain ⟨m, round, sticky⟩ := em
  have hm : (m : ℚ) = 2 * (m / 2 : ℕ) + (m % 2 : ℕ) := by
    exact_mod_cast (Nat.div_add_mod m 2).symm
  rcases Nat.mod_two_eq_zero_or_one m with hmod | hmod
  · have hbit : (m % 2 != 0) = false := by rw [hmod]; rfl
    rw [hmod, Nat.cast_zero] at hm
    cases round <;> cases sticky <;>
      simp only [Tells, ExtendedMantissa.shiftRightOne, hbit, Bool.or_false, Bool.or_true]
        at h ⊢ <;>
      first | linarith | constructor <;> linarith
  · have hbit : (m % 2 != 0) = true := by rw [hmod]; rfl
    rw [hmod, Nat.cast_one] at hm
    cases round <;> cases sticky <;>
      simp only [Tells, ExtendedMantissa.shiftRightOne, hbit, Bool.or_false, Bool.or_true]
        at h ⊢ <;>
      first | linarith | constructor <;> linarith

theorem shiftRight (h : Tells em q) : ∀ k : ℕ, Tells (em >>> k) (q / 2 ^ k)
  | 0 => by
    show Tells em _
    rwa [pow_zero, div_one]
  | k + 1 => by
    show Tells (ExtendedMantissa.shiftRightOne (em >>> k)) _
    rw [pow_succ, ← div_div]
    exact (shiftRight h k).shiftRightOne

end Tells

/-! ## Rounding -/

/-- The exponent of the last binary digit that a number of a given size has. -/
def place (q : ℚ) : ℤ :=
  max (Int.log 2 q - 52) (-1074)

theorem min_le_place (q : ℚ) : -1074 ≤ place q :=
  le_max_right _ _

theorem isNearest_place {q : ℚ} (hq : 0 < q) :
    IsNearest (nearestNat (q / 2 ^ place q)) (q / 2 ^ place q) :=
  isNearest_nearestNat (div_nonneg hq.le (by positivity))

/-- A rational is less than `2 ^ 53` in the unit of its last place. -/
theorem div_place_lt (q : ℚ) : q / 2 ^ place q < 2 ^ 53 := by
  have hlt : q < (2 : ℚ) ^ (Int.log 2 q + 1) := Int.lt_zpow_succ_log_self (by norm_num) q
  have hle : (2 : ℚ) ^ (Int.log 2 q + 1) ≤ 2 ^ (53 + place q) :=
    zpow_le_zpow_right₀ (by norm_num) (by unfold place; omega)
  have hsplit : (2 : ℚ) ^ (53 + place q) = 2 ^ 53 * 2 ^ place q := zpow_add₀ (by norm_num) 53 _
  rw [div_lt_iff₀ (by positivity), ← hsplit]
  exact hlt.trans_le hle

/-- Above the least place there are fifty-three digits. -/
theorem le_div_place {q : ℚ} (hq : 0 < q) (h : -1074 < place q) : 2 ^ 52 ≤ q / 2 ^ place q := by
  have hle : ((2 : ℕ) : ℚ) ^ Int.log 2 q ≤ q := Int.zpow_log_le_self (by norm_num) hq
  have hplace : Int.log 2 q = 52 + place q := by
    unfold place at h ⊢
    omega
  rw [hplace] at hle
  have hsplit : ((2 : ℕ) : ℚ) ^ (52 + place q) = 2 ^ 52 * 2 ^ place q :=
    zpow_add₀ (by norm_num) 52 _
  rw [le_div_iff₀ (by positivity), ← hsplit]
  exact hle

theorem log_lt_of_div_lt {q : ℚ} (hq : 0 < q) {e : ℤ} (h : q / 2 ^ e < 2 ^ 53) :
    Int.log 2 q < 53 + e := by
  refine (Int.lt_zpow_iff_log_lt (by norm_num) hq).1 ?_
  have hsplit : ((2 : ℕ) : ℚ) ^ (53 + e) = 2 ^ 53 * 2 ^ e := zpow_add₀ (by norm_num) 53 _
  rw [hsplit]
  exact (div_lt_iff₀ (by positivity)).1 h

/-- The last place is that for which there are fifty-three digits. -/
theorem place_eq {q : ℚ} {e : ℤ} (hlower : 2 ^ 52 ≤ q / 2 ^ e) (hupper : q / 2 ^ e < 2 ^ 53)
    (he : -1074 ≤ e) : place q = e := by
  have hmul : (2 : ℚ) ^ 52 * 2 ^ e ≤ q := (le_div_iff₀ (by positivity)).1 hlower
  have hq : 0 < q := lt_of_lt_of_le (by positivity) hmul
  have hlt := log_lt_of_div_lt hq hupper
  have hle : 52 + e ≤ Int.log 2 q := by
    refine (Int.zpow_le_iff_le_log (by norm_num) hq).1 ?_
    have hsplit : ((2 : ℕ) : ℚ) ^ (52 + e) = 2 ^ 52 * 2 ^ e := zpow_add₀ (by norm_num) 52 _
    rw [hsplit]
    exact hmul
  unfold place
  omega

/-- Fewer digits stand at the least place only. -/
theorem place_eq_min {q : ℚ} (hq : 0 < q) (h : q / 2 ^ (-1074 : ℤ) < 2 ^ 53) :
    place q = -1074 := by
  have := log_lt_of_div_lt hq h
  unfold place
  omega

namespace Finite

/-- The distance from zero. -/
def magnitude (x : Finite) : ℚ :=
  x.mantissa * 2 ^ x.exponent

/-- The number next to a positive rational, with a sign. A mantissa that is too large by
one digit moves up. -/
def nearest (negative : Bool) (q : ℚ) : Finite :=
  let n := nearestNat (q / 2 ^ place q)
  if n < 2 ^ 53 then ⟨negative, n, place q⟩ else ⟨negative, 2 ^ 52, place q + 1⟩

/-- The parts that numbers have, but for the bound on large exponents. -/
structure Canonical (x : Finite) : Prop where
  lt : x.mantissa < 2 ^ 53
  min : -1074 ≤ x.exponent
  normal : 2 ^ 52 ≤ x.mantissa ∨ x.exponent = -1074

theorem nearestNat_le {q : ℚ} (hq : 0 < q) : nearestNat (q / 2 ^ place q) ≤ 2 ^ 53 := by
  have hnear := (abs_le.1 (isNearest_place hq).1).1
  have hlt := div_place_lt q
  have hcast : (nearestNat (q / 2 ^ place q) : ℚ) < (2 ^ 53 + 1 : ℕ) := by
    push_cast
    linarith
  exact Nat.lt_succ_iff.1 (by exact_mod_cast hcast)

/-- What is next to a rational whose mantissa is rounded to one that fits. -/
theorem nearest_of_lt (negative : Bool) {q : ℚ} {n : ℕ} {e : ℤ} (hq : 0 ≤ q) (hplace : place q = e)
    (h : IsNearest n (q / 2 ^ e)) (hn : n < 2 ^ 53) : nearest negative q = ⟨negative, n, e⟩ := by
  unfold nearest
  rw [hplace, h.nearestNat_eq (div_nonneg hq (by positivity)), if_pos hn]

theorem nearest_of_two_pow (negative : Bool) {q : ℚ} {e : ℤ} (hq : 0 ≤ q) (hplace : place q = e)
    (h : IsNearest (2 ^ 53) (q / 2 ^ e)) : nearest negative q = ⟨negative, 2 ^ 52, e + 1⟩ := by
  unfold nearest
  rw [hplace, h.nearestNat_eq (div_nonneg hq (by positivity)), if_neg (lt_irrefl _)]

/-- Rounded at the last place of a rational, the mantissa fits or has to move up. -/
theorem nearest_cases (negative : Bool) {q : ℚ} (hq : 0 < q) :
    (∃ n < 2 ^ 53, IsNearest n (q / 2 ^ place q) ∧
      nearest negative q = ⟨negative, n, place q⟩) ∨
    (IsNearest (2 ^ 53) (q / 2 ^ place q) ∧
      nearest negative q = ⟨negative, 2 ^ 52, place q + 1⟩) := by
  have hnear := isNearest_place hq
  rcases (nearestNat_le hq).lt_or_eq with hlt | heq
  · exact .inl ⟨_, hlt, hnear, nearest_of_lt negative hq.le rfl hnear hlt⟩
  · rw [heq] at hnear
    exact .inr ⟨hnear, nearest_of_two_pow negative hq.le rfl hnear⟩

theorem canonical_nearest (negative : Bool) {q : ℚ} (hq : 0 < q) :
    (nearest negative q).Canonical := by
  have hmin := min_le_place q
  obtain ⟨n, hn, hnear, heq⟩ | ⟨-, heq⟩ := nearest_cases negative hq
  · rw [heq]
    refine ⟨hn, hmin, ?_⟩
    rcases hmin.eq_or_lt with hplace | hplace
    · exact .inr hplace.symm
    · have hle := le_div_place hq hplace
      have hcast : ((2 ^ 52 : ℕ) : ℚ) < (n + 1 : ℕ) := by
        push_cast
        linarith [(abs_le.1 hnear.1).2]
      exact .inl (Nat.lt_succ_iff.1 (by exact_mod_cast hcast))
  · rw [heq]
    exact ⟨by norm_num, by dsimp only; omega, .inl le_rfl⟩

/-- The sign of a number, as its unpacked form has it. -/
def sign (negative : Bool) : Sign :=
  if negative then .negative else .positive

def unpacked (x : Finite) : UnpackedFloat :=
  if h : x.mantissa = 0 then .zero (sign x.negative)
  else .finite (sign x.negative) x.mantissa x.exponent (Nat.pos_of_ne_zero h)

end Finite

theorem targetExponent_eq (total : ℤ) :
    Format.binary64.targetExponent total = max (total - 53) (-1074) :=
  rfl

/-- The digits before the point decide how large a number is. -/
theorem log_of_floor {m : ℕ} {e : ℤ} {q : ℚ} (hm : 0 < m)
    (hfloor : (m : ℚ) ≤ q / 2 ^ e ∧ q / 2 ^ e < m + 1) : Int.log 2 q = m.log2 + e := by
  have hunit : (0 : ℚ) < 2 ^ e := by positivity
  have hlower : (m : ℚ) * 2 ^ e ≤ q := (le_div_iff₀ hunit).1 hfloor.1
  have hupper : q < (m + 1) * 2 ^ e := (div_lt_iff₀ hunit).1 hfloor.2
  have hmq : (0 : ℚ) < m := by exact_mod_cast hm
  have hq : 0 < q := (mul_pos hmq hunit).trans_le hlower
  have hpow : (2 : ℚ) ^ m.log2 ≤ m := by exact_mod_cast Nat.log2_self_le hm.ne'
  have hpow' : (m : ℚ) + 1 ≤ 2 ^ (m.log2 + 1) := by exact_mod_cast Nat.lt_log2_self (n := m)
  have hsplit : ((2 : ℕ) : ℚ) ^ ((m.log2 : ℤ) + e) = 2 ^ m.log2 * 2 ^ e := by
    rw [zpow_add₀ (by norm_num), zpow_natCast, Nat.cast_two]
  have hsplit' : ((2 : ℕ) : ℚ) ^ ((m.log2 : ℤ) + e + 1) = 2 ^ (m.log2 + 1) * 2 ^ e := by
    rw [zpow_add_one₀ (by norm_num), hsplit, pow_succ, Nat.cast_two]
    ring
  refine le_antisymm (Int.lt_add_one_iff.1 ?_) ?_
  · refine (Int.lt_zpow_iff_log_lt (by norm_num) hq).1 ?_
    rw [hsplit']
    exact hupper.trans_le (mul_le_mul_of_nonneg_right hpow' hunit.le)
  · refine (Int.zpow_le_iff_le_log (by norm_num) hq).1 ?_
    rw [hsplit]
    exact (mul_le_mul_of_nonneg_right hpow hunit.le).trans hlower

theorem targetExponent_totalExponent {m : ℕ} {e : ℤ} {q : ℚ} (hq : 0 < q)
    (hfloor : (m : ℚ) ≤ q / 2 ^ e ∧ q / 2 ^ e < m + 1) (he : e ≤ place q) :
    Format.binary64.targetExponent (totalExponent m e) = place q := by
  rw [targetExponent_eq, totalExponent]
  rcases Nat.eq_zero_or_pos m with rfl | hm
  · -- only a number below the least place has no digits left
    have hlog : Int.log 2 q < e := by
      refine (Int.lt_zpow_iff_log_lt (by norm_num) hq).1 ?_
      simpa using (div_lt_iff₀ (by positivity)).1 hfloor.2
    unfold place at he ⊢
    simp only [Nat.log2_zero]
    omega
  · have hlog := log_of_floor hm hfloor
    unfold place
    omega

/-- A mantissa that fits stays as it is. -/
theorem shiftToTargetExponent_of_lt {n : ℕ} {e : ℤ} (hn : n < 2 ^ 53) (he : -1074 ≤ e) :
    shiftToTargetExponent Format.binary64 n e .exact = (⟨n, false, false⟩, e) := by
  have hlog : n.log2 ≤ 52 := by
    rcases Nat.eq_zero_or_pos n with rfl | hpos
    · simp
    · exact Nat.le_of_lt_succ ((Nat.log2_lt hpos.ne').2 hn)
  have hshift : (Format.binary64.targetExponent (totalExponent n e) - e).toNat = 0 := by
    rw [targetExponent_eq, totalExponent]
    omega
  unfold shiftToTargetExponent shiftToExponent
  dsimp only
  rw [hshift, Nat.cast_zero, add_zero]
  rfl

theorem shiftToTargetExponent_two_pow {e : ℤ} (he : -1074 ≤ e) :
    shiftToTargetExponent Format.binary64 (2 ^ 53) e .exact =
      (⟨2 ^ 52, false, false⟩, e + 1) := by
  have hshift : (Format.binary64.targetExponent (totalExponent (2 ^ 53) e) - e).toNat = 1 := by
    rw [targetExponent_eq, totalExponent, Nat.log2_two_pow]
    omega
  unfold shiftToTargetExponent shiftToExponent
  dsimp only
  rw [hshift]
  rfl

/-- Rounding an approximation gives the number next to what it approximates. -/
theorem roundWithAccuracy_eq (negative : Bool) {m : ℕ} {e : ℤ} {acc : Accuracy} {q : ℚ}
    (hq : 0 < q) (h : Tells (.ofMantissaAndAccuracy m acc) (q / 2 ^ e)) (he : e ≤ place q) :
    roundWithAccuracy Format.binary64 (Finite.sign negative) m e acc =
      (Finite.nearest negative q).unpacked := by
  have hmantissa : (ExtendedMantissa.ofMantissaAndAccuracy m acc).mantissa = m := by
    obtain _ | (_ | _ | _) := acc <;> rfl
  have hfloor := h.floor
  rw [hmantissa] at hfloor
  have htarget := targetExponent_totalExponent hq hfloor he
  -- the first shift leaves the digits down to the last place
  have hplace : e + ((place q - e).toNat : ℤ) = place q := by omega
  have hdiv : q / 2 ^ e / 2 ^ (place q - e).toNat = q / 2 ^ place q := by
    rw [div_div, ← zpow_natCast, ← zpow_add₀ (by norm_num), hplace]
  have htells := h.shiftRight (place q - e).toNat
  rw [hdiv] at htells
  have hnearest := htells.roundedMantissa.nearestNat_eq (by positivity)
  have hle := Finite.nearestNat_le hq
  have hmin := min_le_place q
  unfold roundWithAccuracy shiftToTargetExponent shiftToExponent Finite.nearest
  dsimp only
  rw [htarget, hplace, ← hnearest]
  generalize nearestNat (q / 2 ^ place q) = n at hle
  show (let p := shiftToTargetExponent Format.binary64 n (place q) .exact
    if h : p.1.mantissa = 0 then UnpackedFloat.zero (Finite.sign negative)
    else .finite (Finite.sign negative) p.1.mantissa p.2 (Nat.pos_of_ne_zero h)) = _
  rcases hle.lt_or_eq with hlt | rfl
  · rw [shiftToTargetExponent_of_lt hlt hmin, if_pos hlt]
    rfl
  · rw [shiftToTargetExponent_two_pow hmin, if_neg (lt_irrefl _)]
    rfl

/-! ## Operations -/

theorem tells_exact (m : ℕ) : Tells (.ofMantissaAndAccuracy m .exact) m :=
  rfl

theorem tells_div (a : ℕ) {b : ℕ} (hb : 0 < b) :
    Tells (.ofMantissaAndAccuracy (a / b) (accuracyOfFraction (a % b) b)) ((a : ℚ) / b) := by
  have hbq : (0 : ℚ) < b := by exact_mod_cast hb
  have hcast : (a : ℚ) = b * (a / b : ℕ) + (a % b : ℕ) := by
    exact_mod_cast (Nat.div_add_mod a b).symm
  have hlt : a % b < b := Nat.mod_lt a hb
  have hltq : ((a % b : ℕ) : ℚ) < b := by exact_mod_cast hlt
  rw [hcast, add_div, mul_div_cancel_left₀ _ hbq.ne']
  generalize a / b = n
  generalize a % b = r at hlt hltq
  have hone : (r : ℚ) / b < 1 := (div_lt_one hbq).2 hltq
  unfold accuracyOfFraction
  split
  · rename_i hr
    rw [hr, Nat.cast_zero, zero_div, add_zero]
    exact tells_exact n
  · rename_i hr
    have hpos : (0 : ℚ) < r / b := div_pos (by exact_mod_cast Nat.pos_of_ne_zero hr) hbq
    have hhalf : (r : ℚ) / b = 2 * r / b / 2 := by ring
    rcases Nat.lt_trichotomy (2 * r) b with h | h | h
    · rw [Nat.compare_eq_lt.2 h]
      have hq : (2 * r : ℚ) / b < 1 := (div_lt_one hbq).2 (by exact_mod_cast h)
      simp only [Tells, ExtendedMantissa.ofMantissaAndAccuracy]
      constructor <;> linarith
    · rw [Nat.compare_eq_eq.2 h]
      have hq : (2 * r : ℚ) / b = 1 := (div_eq_one_iff_eq hbq.ne').2 (by exact_mod_cast h)
      simp only [Tells, ExtendedMantissa.ofMantissaAndAccuracy]
      linarith
    · rw [Nat.compare_eq_gt.2 h]
      have hq : 1 < (2 * r : ℚ) / b := (one_lt_div hbq).2 (by exact_mod_cast h)
      simp only [Tells, ExtendedMantissa.ofMantissaAndAccuracy]
      constructor <;> linarith

theorem sign_mul (a b : Bool) : Finite.sign a * Finite.sign b = Finite.sign (a != b) := by
  cases a <;> cases b <;> rfl

theorem sign_div (a b : Bool) : Finite.sign a / Finite.sign b = Finite.sign (a != b) := by
  cases a <;> cases b <;> rfl

namespace Finite

variable {x y : Finite}

theorem magnitude_pos (h : x.mantissa ≠ 0) : 0 < x.magnitude := by
  have : (0 : ℚ) < x.mantissa := by exact_mod_cast Nat.pos_of_ne_zero h
  unfold magnitude
  positivity

theorem unpacked_of_ne_zero (h : x.mantissa ≠ 0) : x.unpacked =
    .finite (sign x.negative) x.mantissa x.exponent (Nat.pos_of_ne_zero h) :=
  dif_neg h

theorem log_magnitude (h : x.mantissa ≠ 0) :
    Int.log 2 x.magnitude = x.mantissa.log2 + x.exponent := by
  refine log_of_floor (Nat.pos_of_ne_zero h) ?_
  rw [magnitude, mul_div_cancel_right₀ _ (by positivity)]
  exact ⟨le_rfl, lt_add_one _⟩

/-- A product of numbers has all its digits at the last place or before it. -/
theorem Canonical.add_exponent_le_place (hx : x.Canonical) (hy : y.Canonical)
    (hmx : x.mantissa ≠ 0) (hmy : y.mantissa ≠ 0) :
    x.exponent + y.exponent ≤ place (x.magnitude * y.magnitude) := by
  have hlog : Int.log 2 x.magnitude + Int.log 2 y.magnitude ≤
      Int.log 2 (x.magnitude * y.magnitude) := by
    refine (Int.zpow_le_iff_le_log (by norm_num)
      (mul_pos (magnitude_pos hmx) (magnitude_pos hmy))).1 ?_
    rw [zpow_add₀ (by norm_num)]
    exact mul_le_mul (Int.zpow_log_le_self (by norm_num) (magnitude_pos hmx))
      (Int.zpow_log_le_self (by norm_num) (magnitude_pos hmy)) (by positivity)
      (magnitude_pos hmx).le
  rw [log_magnitude hmx, log_magnitude hmy] at hlog
  have hnormal : ∀ {z : Finite}, z.Canonical → 52 ≤ z.mantissa.log2 ∨ z.exponent = -1074 :=
    fun hz => hz.normal.imp_left fun h => (Nat.le_log2 (by omega)).2 h
  unfold place
  rcases hnormal hx with h | h <;> rcases hnormal hy with h' | h' <;> omega

theorem mul_unpacked (hx : x.Canonical) (hy : y.Canonical) (hmx : x.mantissa ≠ 0)
    (hmy : y.mantissa ≠ 0) : UnpackedFloat.mul Format.binary64 x.unpacked y.unpacked =
      (nearest (x.negative != y.negative) (x.magnitude * y.magnitude)).unpacked := by
  rw [unpacked_of_ne_zero hmx, unpacked_of_ne_zero hmy, UnpackedFloat.mul, sign_mul]
  refine roundWithAccuracy_eq _ (mul_pos (magnitude_pos hmx) (magnitude_pos hmy)) ?_
    (hx.add_exponent_le_place hy hmx hmy)
  have hunit : x.magnitude * y.magnitude / 2 ^ (x.exponent + y.exponent) =
      (x.mantissa * y.mantissa : ℕ) := by
    rw [zpow_add₀ (by norm_num), magnitude, magnitude, Nat.cast_mul]
    field_simp
  rw [hunit]
  exact tells_exact _

theorem div_unpacked (hx : x.mantissa ≠ 0) (hy : y.mantissa ≠ 0) :
    UnpackedFloat.div Format.binary64 x.unpacked y.unpacked =
      (nearest (x.negative != y.negative) (x.magnitude / y.magnitude)).unpacked := by
  rw [unpacked_of_ne_zero hx, unpacked_of_ne_zero hy, UnpackedFloat.div, sign_div]
  have hq := div_pos (magnitude_pos hx) (magnitude_pos hy)
  have hlog : x.mantissa.log2 + x.exponent - (y.mantissa.log2 + 1 + y.exponent) ≤
      Int.log 2 (x.magnitude / y.magnitude) := by
    refine (Int.zpow_le_iff_le_log (by norm_num) hq).1 ?_
    have hlower := Int.zpow_log_le_self (b := 2) (by norm_num) (magnitude_pos hx)
    have hupper := Int.lt_zpow_succ_log_self (b := 2) (by norm_num) y.magnitude
    rw [log_magnitude hx] at hlower
    rw [log_magnitude hy] at hupper
    rw [zpow_sub₀ (by norm_num), add_right_comm]
    exact div_le_div₀ (magnitude_pos hx).le hlower (magnitude_pos hy) hupper.le
  unfold divCore
  dsimp only
  rw [targetExponent_eq, totalExponent, totalExponent]
  generalize ht : min (x.exponent - y.exponent) (max ((x.mantissa.log2 : ℤ) + 1 + x.exponent -
    (y.mantissa.log2 + 1 + y.exponent) - 53) (-1074)) = target
  have hshift : x.exponent = y.exponent + target +
      (x.exponent - y.exponent - target).toNat := by
    omega
  generalize (x.exponent - y.exponent - target).toNat = shift at hshift
  have hunit : x.magnitude / y.magnitude / 2 ^ target =
      (x.mantissa <<< shift : ℕ) / (y.mantissa : ℚ) := by
    have hyq : (y.mantissa : ℚ) ≠ 0 := by exact_mod_cast hy
    rw [magnitude, magnitude, hshift, zpow_add₀ (by norm_num), zpow_add₀ (by norm_num),
      zpow_natCast, Nat.shiftLeft_eq, Nat.cast_mul, Nat.cast_pow, Nat.cast_two]
    field_simp
  refine roundWithAccuracy_eq _ hq ?_ ?_
  · rw [hunit]
    exact tells_div _ (Nat.pos_of_ne_zero hy)
  · unfold place
    omega

/-- Rounding makes room for all digits first, and so gives the number next to the one given. -/
theorem round_unpacked (negative : Bool) {m : ℕ} (hm : m ≠ 0) (e : ℤ) :
    UnpackedFloat.round Format.binary64 (sign negative) m e =
      (nearest negative (m * 2 ^ e)).unpacked := by
  have hmq : (0 : ℚ) < m := by exact_mod_cast Nat.pos_of_ne_zero hm
  have hunit : (0 : ℚ) < 2 ^ e := by positivity
  have hlog : Int.log 2 ((m : ℚ) * 2 ^ e) = m.log2 + e := by
    refine log_of_floor (Nat.pos_of_ne_zero hm) ?_
    rw [mul_div_cancel_right₀ _ hunit.ne']
    exact ⟨le_rfl, lt_add_one _⟩
  unfold UnpackedFloat.round decreaseExponent
  dsimp only
  rw [targetExponent_eq, totalExponent]
  generalize hshift : (e - max ((m.log2 : ℤ) + 1 + e - 53) (-1074)).toNat = shift
  refine roundWithAccuracy_eq negative (mul_pos hmq hunit) ?_ ?_
  · have hdigits : (m : ℚ) * 2 ^ e / 2 ^ (e - (shift : ℤ)) = (m <<< shift : ℕ) := by
      rw [zpow_sub₀ (by norm_num), zpow_natCast, Nat.shiftLeft_eq, Nat.cast_mul, Nat.cast_pow,
        Nat.cast_two]
      field_simp
    rw [hdigits]
    exact tells_exact _
  · unfold place
    omega

/-- A natural number is rounded once. -/
theorem ofNat_unpacked {n : ℕ} (hn : n ≠ 0) :
    UnpackedFloat.ofNat Format.binary64 n = (nearest false n).unpacked := by
  have hcompare : compare (n : ℤ) 0 = .gt := Int.compare_eq_gt.2 (by omega)
  have hround := round_unpacked false hn 0
  rw [zpow_zero, mul_one] at hround
  unfold UnpackedFloat.ofNat UnpackedFloat.ofInt UnpackedFloat.normalize
  rw [hcompare]
  exact hround

/-- The sum of two positive numbers is rounded once. -/
theorem add_unpacked (hx : x.negative = false) (hy : y.negative = false) (hmx : x.mantissa ≠ 0)
    (hmy : y.mantissa ≠ 0) : UnpackedFloat.add Format.binary64 x.unpacked y.unpacked =
      (nearest false (x.magnitude + y.magnitude)).unpacked := by
  rw [unpacked_of_ne_zero hmx, unpacked_of_ne_zero hmy, hx, hy]
  unfold UnpackedFloat.add decreaseExponent
  dsimp only
  generalize he : min x.exponent y.exponent = e
  obtain ⟨i, hi⟩ : ∃ i : ℕ, x.exponent = e + i := ⟨(x.exponent - e).toNat, by omega⟩
  obtain ⟨j, hj⟩ : ∃ j : ℕ, y.exponent = e + j := ⟨(y.exponent - e).toNat, by omega⟩
  -- with the smaller of the exponents, both have whole digits
  have hsum : x.magnitude + y.magnitude =
      (x.mantissa <<< i + y.mantissa <<< j : ℕ) * 2 ^ e := by
    rw [magnitude, magnitude, hi, hj, zpow_add₀ (by norm_num), zpow_add₀ (by norm_num),
      zpow_natCast, zpow_natCast, Nat.shiftLeft_eq, Nat.shiftLeft_eq]
    push_cast
    ring
  have hx' : x.mantissa <<< i ≠ 0 := by
    rw [Nat.shiftLeft_eq]
    exact Nat.mul_ne_zero hmx (Nat.two_pow_pos i).ne'
  have hpos : 0 < x.mantissa <<< i + y.mantissa <<< j :=
    Nat.add_pos_left (Nat.pos_of_ne_zero hx') _
  have hcompare : compare ((x.mantissa <<< i : ℕ) + (y.mantissa <<< j : ℕ) : ℤ) 0 = .gt :=
    Int.compare_eq_gt.2 (by exact_mod_cast hpos)
  have hshift : (x.exponent - e).toNat = i ∧ (y.exponent - e).toNat = j := by omega
  rw [hshift.1, hshift.2, hsum, ← round_unpacked false hpos.ne']
  show UnpackedFloat.normalize Format.binary64
    ((x.mantissa <<< i : ℕ) + (y.mantissa <<< j : ℕ) : ℤ) e .positive = _
  unfold UnpackedFloat.normalize
  rw [hcompare]
  rfl

end Finite

end TreeScript.Number
