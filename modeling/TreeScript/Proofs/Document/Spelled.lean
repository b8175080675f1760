import TreeScript.Proofs.Document.Numerals
import TreeScript.Proofs.Number.Nearest

/-!
# What numerals stand for

A reader gathers the digits of a numeral, before and behind the point, as one natural
number and scales it by the power of ten that is left (`Spelling.Spells.quantity_eq`).
For the spelling of a decimal these are its own digits and power, except that a whole
number without a power has a zero behind the point (`spells_decimalSpelling`).
-/

open TreeScript.Number

namespace TreeScript.Document

open Spelling

/-! ## Digits -/

theorem foldl_digitOf : ∀ (ds : List Char) (n : ℕ),
    (ds.map digitOf).foldl (fun n d => n * 10 + d) n = Nat.ofDigitChars 10 ds n
  | [], _ => rfl
  | c :: ds, n => by
    rw [List.map_cons, List.foldl_cons, foldl_digitOf ds, Nat.ofDigitChars_cons, Nat.mul_comm 10 n]
    rfl

theorem ofDigits_toDigits (n : ℕ) : ofDigits ((Nat.toDigits 10 n).map digitOf) = n :=
  (foldl_digitOf _ 0).trans (Nat.ofDigitChars_toDigits (by norm_num) le_rfl)

theorem ofDigitChars_zeros_append (n : ℕ) (ds : List Char) :
    Nat.ofDigitChars 10 (List.replicate n '0' ++ ds) 0 = Nat.ofDigitChars 10 ds 0 := by
  rw [Nat.ofDigitChars_append, Nat.ofDigitChars_replicate_zero, Nat.mul_zero]

theorem le_ofDigitChars (ds : List Char) (n : ℕ) : n ≤ Nat.ofDigitChars 10 ds n := by
  rw [Nat.ofDigitChars_eq_ofDigitChars_zero]
  have : 1 * n ≤ 10 ^ ds.length * n := Nat.mul_le_mul_right n (Nat.one_le_pow _ _ (by norm_num))
  omega

/-- Digits that fit 64 bits are gathered as a whole. -/
theorem gather_eq : ∀ (ds : List Char) (n : ℕ), Nat.ofDigitChars 10 ds n < 2 ^ 64 →
    gather n (ds.map digitOf) = (Nat.ofDigitChars 10 ds n, [])
  | [], _, _ => rfl
  | c :: ds, n, h => by
    have hcons : Nat.ofDigitChars 10 (c :: ds) n =
        Nat.ofDigitChars 10 ds (n * 10 + digitOf c) := by
      rw [Nat.ofDigitChars_cons, Nat.mul_comm 10 n]
      rfl
    rw [hcons] at h ⊢
    have hfits : n * 10 + digitOf c < Nat.pow 2 64 := (le_ofDigitChars ds _).trans_lt h
    rw [List.map_cons, gather, if_pos hfits]
    exact gather_eq ds _ h

/-! ## Spellings -/

/-- A spelling of a decimal, with a point or a power of ten. -/
structure Spelling.Spells (p : Spelling) (d : Decimal) : Prop where
  real : p.fraction.isSome ∨ p.exponent.isSome
  significand : Nat.ofDigitChars 10 (p.whole ++ p.fraction.getD []) 0 = d.significand
  exponent : p.numeral.exponent.getD 0 - (p.fraction.getD []).length = d.exponent

/-- What a numeral with a point or a power of ten stands for, if its digits fit. -/
theorem quantity_of_real {n : Numeral} {front all : ℕ}
    (hreal : n.fraction.isSome ∨ n.exponent.isSome) (hwhole : gather 0 n.whole = (front, []))
    (hfraction : gather front (n.fraction.getD []) = (all, [])) : n.quantity =
      (scale (UInt64.ofNat all).toFloat (n.exponent.getD 0 - (n.fraction.getD []).length)).map
        fun x => .real (if n.negative then -x else x) := by
  have hpower : ((([] : List ℕ).length : ℤ) - ((n.fraction.getD []).length - ([] : List ℕ).length) +
      n.exponent.getD 0) = n.exponent.getD 0 - (n.fraction.getD []).length := by
    simp only [List.length_nil]
    ring
  unfold Numeral.quantity
  rw [hwhole]
  dsimp only
  split
  · rename_i hfrac hexp _
    rw [hfrac, hexp] at hreal
    simp at hreal
  · rw [hfraction]
    dsimp only
    rw [hpower]

/-- A numeral stands for the decimal that it spells, scaled from its digits. -/
theorem Spelling.Spells.quantity_eq {p : Spelling} {d : Decimal} (h : p.Spells d)
    (hd : d.significand < 2 ^ 64) : p.numeral.quantity =
      (scale (UInt64.ofNat d.significand).toFloat d.exponent).map
        fun x => .real (if p.negative then -x else x) := by
  obtain ⟨hreal, hsignificand, hexponent⟩ := h
  rw [← hsignificand, Nat.ofDigitChars_append] at hd
  have hwhole := gather_eq p.whole 0 ((le_ofDigitChars _ _).trans_lt hd)
  have hfraction := gather_eq (p.fraction.getD []) _ hd
  rw [← Nat.ofDigitChars_append, hsignificand] at hfraction
  have hmap : (p.fraction.map (·.map digitOf)).getD [] = (p.fraction.getD []).map digitOf := by
    cases p.fraction <;> rfl
  have hlength : (p.numeral.fraction.getD []).length = (p.fraction.getD []).length := by
    show ((p.fraction.map (·.map digitOf)).getD []).length = _
    rw [hmap, List.length_map]
  rw [← hexponent, ← hlength]
  refine quantity_of_real (n := p.numeral) ?_ hwhole (hmap ▸ hfraction)
  simpa [Spelling.numeral] using hreal

end TreeScript.Document

namespace TreeScript.Number.Decimal

/-- The digits of a decimal as a document spells them, with the power of ten that is left.
A whole number that is spelled without a power has one digit behind the point. -/
def spelled (d : Decimal) : Decimal :=
  if Style.document.positional d.leading ∧ 0 ≤ d.exponent then
    ⟨d.significand * 10 ^ (d.exponent.toNat + 1), -1⟩
  else d

@[simp]
theorem value_spelled (d : Decimal) : d.spelled.value = d.value := by
  unfold spelled
  split
  · rename_i h
    have hpow : (10 : ℚ) ^ d.exponent = 10 ^ d.exponent.toNat := by
      rw [← zpow_natCast, Int.toNat_of_nonneg h.2]
    unfold value
    rw [hpow]
    push_cast
    rw [pow_succ, zpow_neg_one]
    field_simp
  · rfl

theorem ofDigitChars_digits (d : Decimal) : Nat.ofDigitChars 10 d.digits 0 = d.significand :=
  Nat.ofDigitChars_toDigits (by norm_num) le_rfl

theorem leading_eq (d : Decimal) : d.leading = d.exponent + (d.digits.length - 1 : ℕ) :=
  rfl

variable {d : Decimal}

theorem lt_pow_length_digits (d : Decimal) : d.significand < 10 ^ d.digits.length :=
  (Nat.length_toDigits_le_iff (by norm_num) (List.length_pos_iff.2 d.digits_ne_nil)).1 le_rfl

/-- A whole number that is spelled without a power has at most seventeen digits. -/
theorem significand_spelled_lt (h : d.significand < 2 ^ 64) : d.spelled.significand < 2 ^ 64 := by
  unfold spelled
  split
  · rename_i hd
    obtain ⟨hpositional, hexp⟩ := hd
    have hleading : d.leading ≤ 15 := by
      simp only [Style.document, Bool.and_eq_true, decide_eq_true_eq] at hpositional
      exact hpositional.2
    have hlength : 0 < d.digits.length := List.length_pos_iff.2 d.digits_ne_nil
    have hplaces : d.digits.length + (d.exponent.toNat + 1) ≤ 17 := by
      rw [d.leading_eq] at hleading
      omega
    calc d.significand * 10 ^ (d.exponent.toNat + 1)
        < 10 ^ d.digits.length * 10 ^ (d.exponent.toNat + 1) :=
          Nat.mul_lt_mul_of_pos_right d.lt_pow_length_digits (by positivity)
      _ = 10 ^ (d.digits.length + (d.exponent.toNat + 1)) := (pow_add _ _ _).symm
      _ ≤ 10 ^ 17 := Nat.pow_le_pow_right (by norm_num) hplaces
      _ < 2 ^ 64 := by norm_num
  · exact h

theorem significand_spelled_ne_zero (h : 0 < d.significand) : d.spelled.significand ≠ 0 := by
  unfold spelled
  split
  · exact (Nat.mul_pos h (by positivity)).ne'
  · exact h.ne'

theorem exponent_spelled_mem (h : -324 ≤ d.exponent ∧ d.exponent ≤ 308) :
    -324 ≤ d.spelled.exponent ∧ d.spelled.exponent ≤ 308 := by
  unfold spelled
  split
  · norm_num
  · exact h

end TreeScript.Number.Decimal

namespace TreeScript.Document

open Spelling

variable (negative : Bool) {d : Decimal}

theorem negative_decimalSpelling (d : Decimal) :
    (decimalSpelling negative d).negative = negative := by
  unfold decimalSpelling
  split
  · split
    · rfl
    · dsimp only
      split <;> rfl
  · dsimp only
    split <;> rfl

theorem spells_whole (hpositional : Style.document.positional d.leading = true)
    (hexp : 0 ≤ d.exponent) : (decimalSpelling negative d).Spells d.spelled := by
  have hspelled : d.spelled = ⟨d.significand * 10 ^ (d.exponent.toNat + 1), -1⟩ :=
    if_pos ⟨hpositional, hexp⟩
  rw [decimalSpelling, if_pos hpositional, if_pos hexp, hspelled]
  refine ⟨Or.inl rfl, ?_, rfl⟩
  have hzeros : d.digits ++ List.replicate d.exponent.toNat '0' ++ ['0'] =
      d.digits ++ List.replicate (d.exponent.toNat + 1) '0' := by
    rw [List.append_assoc, List.replicate_succ']
  dsimp only [Option.getD_some]
  rw [hzeros, Nat.ofDigitChars_append, d.ofDigitChars_digits, Nat.ofDigitChars_replicate_zero,
    Nat.mul_comm]

theorem spells_fraction (hpositional : Style.document.positional d.leading = true)
    (hexp : ¬0 ≤ d.exponent) : (decimalSpelling negative d).Spells d.spelled := by
  have hspelled : d.spelled = d := if_neg fun h => hexp h.2
  have hdigits := d.ofDigitChars_digits
  rw [decimalSpelling, if_pos hpositional, if_neg hexp, hspelled]
  dsimp only
  split
  · refine ⟨Or.inl rfl, ?_, ?_⟩
    · dsimp only [Option.getD_some]
      rw [List.take_append_drop, hdigits]
    · simp [Spelling.numeral]
      omega
  · refine ⟨Or.inl rfl, ?_, ?_⟩
    · dsimp only [Option.getD_some]
      have hzero : (['0'] : List Char) = List.replicate 1 '0' := rfl
      rw [hzero, ofDigitChars_zeros_append, ofDigitChars_zeros_append, hdigits]
    · simp [Spelling.numeral]
      omega

theorem spells_scientific (hpositional : ¬Style.document.positional d.leading = true) :
    (decimalSpelling negative d).Spells d.spelled := by
  have hspelled : d.spelled = d := if_neg fun h => hpositional h.1
  have hpower : (if decide (d.leading < 0) = true then
      -(ofDigits ((Nat.toDigits 10 d.leading.natAbs).map digitOf) : ℤ)
      else ofDigits ((Nat.toDigits 10 d.leading.natAbs).map digitOf)) = d.leading := by
    rw [ofDigits_toDigits]
    split <;> rename_i hneg <;> simp only [decide_eq_true_eq] at hneg <;> omega
  have hdigits := d.ofDigitChars_digits
  have hleading := d.leading_eq
  have hne := d.digits_ne_nil
  rw [decimalSpelling, if_neg hpositional, hspelled]
  dsimp only
  generalize d.digits = ds at hdigits hleading hne
  rcases ds with _ | ⟨first, _ | ⟨second, more⟩⟩
  · exact absurd rfl hne
  · refine ⟨Or.inr rfl, by simpa using hdigits, (congrArg (· - _) hpower).trans ?_⟩
    rw [hleading]
    simp
  · refine ⟨Or.inl rfl, by simpa using hdigits, (congrArg (· - _) hpower).trans ?_⟩
    rw [hleading]
    simp

/-- A document spells the digits of a decimal with a point or a power of ten. -/
theorem spells_decimalSpelling (d : Decimal) : (decimalSpelling negative d).Spells d.spelled := by
  by_cases hpositional : Style.document.positional d.leading = true
  · by_cases hexp : 0 ≤ d.exponent
    · exact spells_whole negative hpositional hexp
    · exact spells_fraction negative hpositional hexp
  · exact spells_scientific negative hpositional

end TreeScript.Document
