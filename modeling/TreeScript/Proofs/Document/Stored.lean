import TreeScript.Proofs.Document.RoundTrip
import TreeScript.Proofs.Document.Scaled
import TreeScript.Proofs.Number.Length

/-!
# Stored numbers

A tree that is a number loads again from its document, as a number of the same sign. Where
the digits and the power of ten in the document are small enough to be numbers themselves
it is the same number, and elsewhere a nearby one (`loadTree_encode_number`). It need not
be the same (`loadTree_encode_drifts`).
-/

namespace TreeScript

open Number

namespace Document

/-! ## Products in range -/

/-- Whether the product that the document of a number stands for is in range. -/
def productInRange (x : Finite) : Bool :=
  let d := (x.shortest .even).spelled
  match shape (UInt64.ofNat d.significand).toFloat, shape (powerOfTen d.exponent.toNat) with
  | .finite p, .finite p' =>
    p.mantissa * p'.mantissa * 2 ^ (p.exponent + p'.exponent).toNat + 2 ^ 970 < 2 ^ 1024
  | _, _ => false

/-- The largest numbers, which roundings might push out of range. -/
theorem productInRange_of_largest : ∀ negative, ∀ i < 10,
    productInRange ⟨negative, 2 ^ 53 - 1 - i, 971⟩ = true := by
  decide +kernel

variable {x p p' : Finite}

theorem product_lt_of_productInRange (h : productInRange x = true)
    (hp : shape (UInt64.ofNat (x.shortest .even).spelled.significand).toFloat = .finite p)
    (hp' : shape (powerOfTen (x.shortest .even).spelled.exponent.toNat) = .finite p') :
    p.magnitude * p'.magnitude < 2 ^ 1024 - 2 ^ 970 := by
  unfold productInRange at h
  dsimp only at h
  rw [hp, hp'] at h
  simp only [decide_eq_true_eq] at h
  have hunits : (2 : ℚ) ^ (p.exponent + p'.exponent) ≤ 2 ^ (p.exponent + p'.exponent).toNat := by
    rw [← zpow_natCast]
    exact zpow_le_zpow_right₀ (by norm_num) (Int.self_le_toNat _)
  have hle : p.magnitude * p'.magnitude ≤
      (p.mantissa * p'.mantissa * 2 ^ (p.exponent + p'.exponent).toNat : ℕ) := by
    calc p.magnitude * p'.magnitude
        = p.mantissa * p'.mantissa * 2 ^ (p.exponent + p'.exponent) := by
          rw [zpow_add₀ two_ne_zero, Finite.magnitude, Finite.magnitude]
          ring
      _ ≤ p.mantissa * p'.mantissa * 2 ^ (p.exponent + p'.exponent).toNat :=
          mul_le_mul_of_nonneg_left hunits (mul_nonneg (Nat.cast_nonneg _) (Nat.cast_nonneg _))
      _ = (p.mantissa * p'.mantissa * 2 ^ (p.exponent + p'.exponent).toNat : ℕ) := by
          rw [Nat.cast_mul, Nat.cast_mul, Nat.cast_pow, Nat.cast_two]
  rw [lt_sub_iff_add_lt]
  refine (add_le_add_left hle _).trans_lt ?_
  exact_mod_cast h

theorem top_eq : (2 : ℚ) ^ 1024 - 2 ^ 970 = (2 ^ 53 - 1 / 2) * 2 ^ (971 : ℤ) := by
  have hpow : (2 : ℚ) ^ (971 : ℤ) = 2 * 2 ^ 970 := zpow_one_add₀ two_ne_zero 970
  have hsplit : (2 : ℚ) ^ 1024 = 2 ^ 54 * 2 ^ 970 := pow_add 2 54 970
  rw [hpow, hsplit]
  generalize (2 : ℚ) ^ 970 = unit
  ring

/-- Below the largest numbers there is room for the roundings. -/
theorem le_below_largest (h : x.Bounded)
    (hlargest : ¬(2 ^ 53 - 10 ≤ x.mantissa ∧ x.exponent = 971)) :
    (x.mantissa + 1 / 2 : ℚ) * 2 ^ x.exponent ≤ (2 ^ 53 - 9) * 2 ^ (971 : ℤ) := by
  rcases h.max.lt_or_eq with hlt | heq
  · have hm : (x.mantissa : ℚ) + 1 ≤ 2 ^ 53 := by exact_mod_cast h.lt
    have hunit : (2 : ℚ) ^ x.exponent ≤ 2 ^ (970 : ℤ) :=
      zpow_le_zpow_right₀ (by norm_num) (by omega)
    have hdouble : (2 : ℚ) ^ (971 : ℤ) = 2 * 2 ^ (970 : ℤ) := zpow_one_add₀ two_ne_zero 970
    rw [hdouble]
    calc (x.mantissa + 1 / 2 : ℚ) * 2 ^ x.exponent
        ≤ 2 ^ 53 * 2 ^ (970 : ℤ) := by
          gcongr
          linarith
      _ ≤ (2 ^ 53 - 9) * 2 * 2 ^ (970 : ℤ) := by
          gcongr
          norm_num
      _ = (2 ^ 53 - 9) * (2 * 2 ^ (970 : ℤ)) := mul_assoc _ _ _
  · have hm : (x.mantissa : ℚ) + 11 ≤ 2 ^ 53 := by
      have hle : x.mantissa + 11 ≤ 2 ^ 53 := by omega
      exact_mod_cast hle
    rw [heq]
    gcongr
    linarith

/-- The product that the document of a number stands for is in range. -/
theorem product_lt (h : x.Bounded) (hx : x.mantissa ≠ 0)
    (he : 0 ≤ (x.shortest .even).spelled.exponent)
    (hp : Computes (UInt64.ofNat (x.shortest .even).spelled.significand).toFloat p 1
      (x.shortest .even).spelled.significand)
    (hp' : Computes (powerOfTen (x.shortest .even).spelled.exponent.toNat) p' 1
      (10 ^ (x.shortest .even).spelled.exponent.toNat)) :
    p.magnitude * p'.magnitude < 2 ^ 1024 - 2 ^ 970 := by
  by_cases hlargest : 2 ^ 53 - 10 ≤ x.mantissa ∧ x.exponent = 971
  · obtain ⟨negative, mantissa, exponent⟩ := x
    obtain ⟨hmantissa, rfl⟩ : 2 ^ 53 - 10 ≤ mantissa ∧ exponent = 971 := hlargest
    have hlt : mantissa < 2 ^ 53 := h.lt
    have hrange := productInRange_of_largest negative (2 ^ 53 - 1 - mantissa) (by omega)
    have hsub : 2 ^ 53 - 1 - (2 ^ 53 - 1 - mantissa) = mantissa := by omega
    rw [hsub] at hrange
    exact product_lt_of_productInRange hrange hp.shape hp'.shape
  · have hvalue := Finite.value_shortest_le hx .even
    rw [← Decimal.value_spelled, Decimal.value, mul_zpow_of_nonneg he] at hvalue
    have hnear := (hp.near_mul hp').left
    rw [top_eq]
    refine lt_of_mul_lt_mul_right ?_ (pow_pos drift_pos (1 + 1)).le
    calc p.magnitude * p'.magnitude * drift ^ (1 + 1)
        ≤ (2 ^ 53 - 9) * 2 ^ (971 : ℤ) := (hnear.trans hvalue).trans (le_below_largest h hlargest)
      _ < (2 ^ 53 - 1 / 2) * drift ^ (1 + 1) * 2 ^ (971 : ℤ) := by
          gcongr
          norm_num [drift]
      _ = (2 ^ 53 - 1 / 2) * 2 ^ (971 : ℤ) * drift ^ (1 + 1) := mul_right_comm _ _ _

/-! ## Numbers that come back -/

/-- Digits and a power of ten that are numbers themselves. -/
def Representable (d : Decimal) : Prop :=
  d.significand ≤ 2 ^ 53 ∧ d.exponent.natAbs ≤ 22

/-- The digits of a number fit 64 bits. -/
theorem significand_spelled_shortest_lt (h : x.Bounded) (hx : x.mantissa ≠ 0) :
    (x.shortest .even).spelled.significand < 2 ^ 64 :=
  Decimal.significand_spelled_lt
    ((Finite.significand_shortest_lt h.toCanonical hx .even).trans (by norm_num))

/-- The decimal of a normal number is of usual size, and stays so in four roundings. -/
theorem two_zpow_le_value_shortest (h : x.Bounded) (hx : 2 ^ 52 ≤ x.mantissa) :
    2 ^ (-1024 : ℤ) ≤ (x.shortest .even).value * drift ^ 4 := by
  have hne : x.mantissa ≠ 0 := by omega
  have hnear := (Finite.holds_shortest hne .even).near hx
  have hsize : (2 : ℚ) ^ (-1022 : ℤ) ≤ x.magnitude := by
    have hm : (2 : ℚ) ^ 52 ≤ x.mantissa := by exact_mod_cast hx
    have hsplit : (2 : ℚ) ^ (-1022 : ℤ) = 2 ^ 52 * 2 ^ (-1074 : ℤ) :=
      zpow_add₀ two_ne_zero 52 (-1074)
    rw [hsplit]
    exact mul_le_mul hm (zpow_le_zpow_right₀ (by norm_num) h.min) (by positivity) (by positivity)
  have hsplit : (2 : ℚ) ^ (-1024 : ℤ) = 2 ^ (-1022 : ℤ) * 2 ^ (-2 : ℤ) :=
    zpow_add₀ two_ne_zero (-1022) (-2)
  calc (2 : ℚ) ^ (-1024 : ℤ) = 2 ^ (-1022 : ℤ) * 2 ^ (-2 : ℤ) := hsplit
    _ ≤ x.magnitude * (drift ^ 1 * drift ^ 4) :=
        mul_le_mul hsize (by norm_num [drift]) (by norm_num) (Finite.magnitude_pos hne).le
    _ = x.magnitude * drift ^ 1 * drift ^ 4 := (mul_assoc _ _ _).symm
    _ ≤ (x.shortest .even).value * drift ^ 4 :=
        mul_le_mul_of_nonneg_right hnear.right (pow_pos drift_pos 4).le

/-- What scaling gives for the decimal of a number. -/
theorem exists_scale_shortest (h : x.Bounded) (hx : x.mantissa ≠ 0) :
    ∃ r : Finite, r.Bounded ∧ r.negative = false ∧
      scale (UInt64.ofNat (x.shortest .even).spelled.significand).toFloat
        (x.shortest .even).spelled.exponent = some r.toFloat ∧
      (2 ^ 52 ≤ x.mantissa → Near 5 r.magnitude (x.shortest .even).value) := by
  have hdigits := significand_spelled_shortest_lt h hx
  have hne := Decimal.significand_spelled_ne_zero (Finite.significand_shortest_pos hx .even)
  obtain ⟨hmin, hmax⟩ := Decimal.exponent_spelled_mem
    ⟨Finite.neg_324_le_exponent_shortest h.toCanonical hx .even,
      Finite.exponent_shortest_le_308 h hx .even⟩
  have hsize := two_zpow_le_value_shortest h
  rw [← (x.shortest .even).value_spelled] at hsize ⊢
  rcases lt_or_ge (x.shortest .even).spelled.exponent 0 with hneg | hpos
  · obtain ⟨r, hr, hnegative, hscale, hnear⟩ :=
      exists_scale_of_neg hne hdigits (by omega) hneg
    exact ⟨r, hr, hnegative, hscale, fun hnormal => hnear (hsize hnormal)⟩
  · obtain ⟨r, hr, hnegative, hscale, hnear⟩ :=
      exists_scale_of_nonneg hne hdigits hpos hmax fun _ _ => product_lt h hx hpos
    exact ⟨r, hr, hnegative, hscale, fun _ => hnear⟩

/-- A decimal with small digits and a small power gives the number itself. -/
theorem scale_shortest_of_representable (h : x.Bounded) (hx : x.mantissa ≠ 0)
    (hd : Representable (x.shortest .even).spelled) :
    scale (UInt64.ofNat (x.shortest .even).spelled.significand).toFloat
      (x.shortest .even).spelled.exponent = some (x.signed false).toFloat := by
  have hne := Decimal.significand_spelled_ne_zero (Finite.significand_shortest_pos hx .even)
  have hnearest : Finite.nearest false (x.shortest .even).spelled.value = x.signed false := by
    rw [Decimal.value_spelled, Finite.nearest_eq_signed false x.negative,
      Finite.nearest_shortest h.toCanonical hx]
  have hscale := scale_of_representable hne hd.1 hd.2 (hnearest ▸ h.signed false)
  rw [hscale]
  exact congrArg (fun p => some (Finite.toFloat p)) hnearest

theorem eq_ok_of_toOption {α : Type} {r : Except Error α} {a : α} (h : r.toOption = some a) :
    r = .ok a := by
  cases r with
  | error e => cases h
  | ok b =>
    cases h
    rfl

theorem rereadNumber_zero {y : Float} (hy : shape y = .finite x) (hx : x.mantissa = 0) :
    rereadNumber y = .ok y := by
  rcases eq_zero_of_shape hy hx with rfl | rfl
  · exact eq_ok_of_toOption (by decide +kernel)
  · exact eq_ok_of_toOption (by decide +kernel)

/-- A finite number comes back as a finite number. -/
theorem exists_rereadNumber {y : Float} (hy : shape y = .finite x) :
    ∃ r : Finite, r.Bounded ∧ rereadNumber y = .ok r.toFloat ∧ r.negative = x.negative ∧
      (2 ^ 52 ≤ x.mantissa → |r.magnitude - x.magnitude| ≤ x.magnitude / 2 ^ 48) ∧
      (Representable (x.shortest .even).spelled → r = x) := by
  have hbounded := Finite.bounded_of_shape hy
  by_cases hx : x.mantissa = 0
  · refine ⟨x, hbounded, ?_, rfl, fun hnormal => by omega, fun _ => rfl⟩
    rw [Finite.toFloat_of_shape hy]
    exact rereadNumber_zero hy hx
  have hdigits := significand_spelled_shortest_lt hbounded hx
  have hquantity := (spells_decimalSpelling x.negative (x.shortest .even)).quantity_eq hdigits
  obtain ⟨r, hr, hnegative, hscale, hnear⟩ := exists_scale_shortest hbounded hx
  refine ⟨r.signed x.negative, hr.signed _, ?_, rfl, fun hnormal => ?_, fun hd => ?_⟩
  · rw [negative_decimalSpelling, hscale, Option.map_some, toFloat_signed hr hnegative] at hquantity
    unfold rereadNumber
    rw [hy]
    dsimp only
    rw [finiteSpelling, hquantity]
    rfl
  · exact ((hnear hnormal).trans ((Finite.holds_shortest hx .even).near hnormal)).abs_sub_le
      (Finite.magnitude_pos hx)
  · rw [scale_shortest_of_representable hbounded hx hd, Option.some_inj,
      Finite.toFloat_inj (hbounded.signed false) hr] at hscale
    rw [← hscale]
    rfl

end Document

/-- Loading the document of a number is reading the number. -/
theorem loadTree_encode_of_rereadNumber {x y : Float} (h : Document.rereadNumber x = .ok y)
    (journal : Journal) : (loadTree (Document.encode (.literal (.number x))).toUTF8 journal).1 =
      .ok (.literal (.number y)) := by
  have hreload : Document.reload (.literal (.number x)) Document.nestingLimit =
      (Document.rereadNumber x).map fun y => .literal (.number y) := by
    cases hx : Document.rereadNumber x <;>
      simp [Document.reload, Document.reloadValue, Document.opening, Document.nestingLimit, hx] <;>
      rfl
  rw [loadTree_encode_eq, hreload, h]
  rfl

/-- A finite number is stored and loaded without an error, as a number of the same sign. It
is the same number where its digits and its power of ten are small, and otherwise, if it
is a normal number, one at most six roundings away. -/
theorem loadTree_encode_number {x : Float} {p : Number.Finite} (h : shape x = .finite p)
    (journal : Journal) : ∃ (y : Float) (q : Number.Finite),
      (loadTree (Document.encode (.literal (.number x))).toUTF8 journal).1 =
        .ok (.literal (.number y)) ∧
      shape y = .finite q ∧ q.negative = p.negative ∧
      (2 ^ 52 ≤ p.mantissa → |q.magnitude - p.magnitude| ≤ p.magnitude / 2 ^ 48) ∧
      (Document.Representable (p.shortest .even).spelled → y = x) := by
  obtain ⟨r, hr, hread, hnegative, hnear, hsame⟩ := Document.exists_rereadNumber h
  refine ⟨r.toFloat, r, loadTree_encode_of_rereadNumber hread journal, Finite.shape_toFloat hr,
    hnegative, hnear, fun hd => ?_⟩
  rw [hsame hd]
  exact Finite.toFloat_of_shape h

/-- A number of thirteen digits comes back as it was, and the least of all numbers comes
back as a number. -/
theorem loadTree_encode_number_small :
    let price : Float := 1234567890.125
    let least : Float := Float.ofBits 1
    (loadTree (Document.encode (.literal (.number price))).toUTF8 .off).1 =
        .ok (.literal (.number price)) ∧
      ∃ (y : Float) (q : Number.Finite),
        (loadTree (Document.encode (.literal (.number least))).toUTF8 .off).1 =
          .ok (.literal (.number y)) ∧ shape y = .finite q ∧ q.negative = false := by
  intro price least
  have hprice : shape price = .finite ⟨false, 5178153039822848, -22⟩ := by decide +kernel
  have hleast : shape least = .finite ⟨false, 1, -1074⟩ := by decide +kernel
  have hdecimal : Document.Representable
      ((⟨false, 5178153039822848, -22⟩ : Number.Finite).shortest .even).spelled := by
    unfold Document.Representable
    decide +kernel
  refine ⟨?_, ?_⟩
  · obtain ⟨y, -, hload, -, -, -, hsame⟩ := loadTree_encode_number hprice .off
    rwa [hsame hdecimal] at hload
  · obtain ⟨y, q, hload, hshape, hnegative, -⟩ := loadTree_encode_number hleast .off
    exact ⟨y, q, hload, hshape, hnegative⟩

/-- A number with sixteen digits that comes back as its upper neighbour. -/
theorem loadTree_encode_drifts :
    let x : Float := Float.ofBits 0x4197d783ffffffff
    x.isFinite ∧
      (loadTree (Document.encode (.literal (.number x))).toUTF8 .off).1 =
        .ok (.literal (.number 100000000.0)) ∧
      (100000000.0 : Float).toBits ≠ x.toBits := by
  intro x
  have hread : Document.rereadNumber x = .ok 100000000.0 :=
    Document.eq_ok_of_toOption (by decide +kernel)
  exact ⟨by decide +kernel, loadTree_encode_of_rereadNumber hread .off, by decide +kernel⟩

end TreeScript
