import TreeScript.Proofs.Number.Fewest
import TreeScript.Proofs.Number.Next
import TreeScript.Proofs.Number.Range
import TreeScript.Value

/-!
# What printed numbers say

A program prints a finite number as a sign and digits, with a point and more digits behind it
only if the number is not whole. `Prints` says what can be read off such a text: all digits of
a whole number, and of any other number a decimal that is rounded to it, with no more digits
than this takes. `display_exact` is for all finite numbers, and so numbers with different bits
have different texts.

The text is taken apart as a `Spelling` without a power of ten (`Decimal.displaySpelling`).
-/

namespace TreeScript

namespace Document.Spelling

/-- What a spelling without a power of ten denotes, apart from its sign. -/
def denotes (p : Spelling) : ℚ :=
  Number.denoted (p.whole ++ p.fractionChars)

/-- The digits of a spelling from the first one on that is no zero. -/
def significant (p : Spelling) : List Char :=
  (p.whole ++ p.fraction.getD []).dropWhile (· = '0')

/-- Digits with a point at most, none of which could be left out. -/
structure Plain (p : Spelling) : Prop extends WellFormed p where
  positional : p.exponent = none
  last : ∀ digits ∈ p.fraction, digits.getLast? ≠ some '0'

end Document.Spelling

namespace Number

open Document

/-! ## Spellings of decimals -/

namespace Decimal

/-- How a decimal is spelled without a power of ten. -/
def displaySpelling (negative : Bool) (d : Decimal) : Spelling :=
  if 0 ≤ d.exponent then
    ⟨negative, d.digits ++ List.replicate d.exponent.toNat '0', none, none⟩
  else
    let places := (-d.exponent).toNat
    if places < d.digits.length then
      ⟨negative, d.digits.take (d.digits.length - places),
        some (d.digits.drop (d.digits.length - places)), none⟩
    else ⟨negative, ['0'], some (List.replicate (places - d.digits.length) '0' ++ d.digits), none⟩

variable {d : Decimal} {negative : Bool}

theorem toList_positionalText (negative : Bool) (d : Decimal) :
    (d.positionalText "").toList =
      (d.displaySpelling negative).whole ++ (d.displaySpelling negative).fractionChars := by
  unfold displaySpelling positionalText
  dsimp only
  split
  · simp [Spelling.fractionChars]
  · split <;> simp [Spelling.fractionChars]

@[simp]
theorem negative_displaySpelling (negative : Bool) (d : Decimal) :
    (d.displaySpelling negative).negative = negative := by
  unfold displaySpelling
  dsimp only
  split
  · rfl
  · split <;> rfl

@[simp]
theorem exponent_displaySpelling (negative : Bool) (d : Decimal) :
    (d.displaySpelling negative).exponent = none := by
  unfold displaySpelling
  dsimp only
  split
  · rfl
  · split <;> rfl

theorem chars_displaySpelling (negative : Bool) (d : Decimal) :
    (d.displaySpelling negative).chars =
      (if negative then ['-'] else []) ++ (d.positionalText "").toList := by
  rw [toList_positionalText negative, Spelling.chars, Spelling.exponentChars,
    negative_displaySpelling, exponent_displaySpelling, List.append_nil]

theorem denotes_displaySpelling (negative : Bool) (d : Decimal) :
    (d.displaySpelling negative).denotes = d.value := by
  rw [Spelling.denotes, ← toList_positionalText, denoted_positionalText]

theorem fraction_displaySpelling_of_nonneg (h : 0 ≤ d.exponent) :
    (d.displaySpelling negative).fraction = none := by
  rw [displaySpelling, if_pos h]

theorem isSome_fraction_displaySpelling (h : d.exponent < 0) :
    (d.displaySpelling negative).fraction.isSome := by
  rw [displaySpelling, if_neg (by omega)]
  dsimp only
  split <;> rfl

/-- The digits of a whole number start with a zero only for zero. -/
theorem plain_of_whole (h : d.exponent = 0) : (d.displaySpelling negative).Plain := by
  rw [displaySpelling, if_pos h.ge, h, Int.toNat_zero, List.replicate_zero, List.append_nil]
  refine ⟨⟨digits_digits d, fun more hmore => ?_, nofun, nofun⟩, rfl, nofun⟩
  have hzero : 0 < d.significand ∨ d = ⟨0, 0⟩ := by
    obtain ⟨significand, exponent⟩ := d
    obtain rfl : exponent = 0 := h
    rcases Nat.eq_zero_or_pos significand with rfl | hpos
    · exact .inr rfl
    · exact .inl hpos
  exact (eq_nil_of_digits_eq hzero hmore).1

/-- Behind the point, the last digit is the last one of the decimal. -/
theorem plain_of_fraction (hexp : d.exponent < 0) (hmod : d.significand % 10 ≠ 0) :
    (d.displaySpelling negative).Plain := by
  have hdigits := digits_digits d
  have hlast := getLast?_digits hmod
  have hhead := head?_digits (d := d) (by omega)
  rw [displaySpelling, if_neg (by omega)]
  dsimp only
  split
  · rename_i hplaces
    have hwhole : d.digits.take (d.digits.length - (-d.exponent).toNat) ≠ [] := by
      rw [Ne, List.take_eq_nil_iff, not_or]
      exact ⟨by omega, hdigits.1⟩
    have hbehind : d.digits.drop (d.digits.length - (-d.exponent).toNat) ≠ [] := by
      rw [Ne, List.drop_eq_nil_iff]
      omega
    refine ⟨⟨hdigits.of_subset hwhole (List.take_subset _ _), fun more hmore => ?_, ?_, nofun⟩,
      rfl, ?_⟩
    · have hfirst := congrArg List.head? hmore
      rw [List.head?_take, if_neg (by omega)] at hfirst
      exact absurd hfirst hhead
    · rintro _ ⟨⟩
      exact hdigits.of_subset hbehind (List.drop_subset _ _)
    · rintro _ ⟨⟩
      rwa [List.getLast?_drop, if_neg (by omega)]
  · refine ⟨⟨⟨by simp, by simp⟩, fun _ h => by cases h; rfl, ?_, nofun⟩, rfl, ?_⟩
    · rintro _ ⟨⟩
      exact hdigits.zeros_append _
    · rintro _ ⟨⟩
      rwa [List.getLast?_append_of_ne_nil _ hdigits.1]

/-- The digits of the spelling are those of the decimal, after zeros. -/
theorem significant_displaySpelling (hexp : d.exponent < 0) (hpos : 0 < d.significand) :
    (d.displaySpelling negative).significant = d.digits := by
  obtain ⟨c, cs, hcs⟩ := List.exists_cons_of_ne_nil d.digits_ne_nil
  have hc : c ≠ '0' := by
    have hhead := head?_digits hpos
    rw [hcs] at hhead
    rintro rfl
    exact hhead rfl
  have hzeros : ∀ n, (List.replicate n '0' ++ d.digits).dropWhile (· = '0') = d.digits := by
    intro n
    rw [List.dropWhile_append_of_pos (by simp), hcs, List.dropWhile_cons_of_neg (by simpa using hc)]
  have hall : ∃ n, (d.displaySpelling negative).whole ++
      (d.displaySpelling negative).fraction.getD [] = List.replicate n '0' ++ d.digits := by
    rw [displaySpelling, if_neg (by omega)]
    dsimp only
    split
    · exact ⟨0, List.take_append_drop _ _⟩
    · exact ⟨(-d.exponent).toNat - d.digits.length + 1, rfl⟩
  obtain ⟨n, hn⟩ := hall
  rw [Spelling.significant, hn, hzeros]

end Decimal

/-! ## Texts of numbers -/

namespace Finite

variable {x : Finite}

theorem decimal_display_of_whole (h : x.isWhole = true) :
    Style.display.decimal x = ⟨x.wholePart, 0⟩ := by
  rw [Style.decimal, h]
  rfl

theorem decimal_display_of_not_whole (h : x.isWhole = false) :
    Style.display.decimal x = x.shortest .up := by
  rw [Style.decimal, h]
  rfl

theorem mantissa_ne_zero_of_not_whole (h : x.isWhole = false) : x.mantissa ≠ 0 := by
  intro hzero
  simp [isWhole, hzero] at h

/-- A decimal with fewer digits is not rounded to the number. -/
theorem RoundsTo.length_digits_le (hx : x.Canonical) (hwhole : x.isWhole = false) {d : Decimal}
    (h : x.RoundsTo d.value) : (x.shortest .up).digits.length ≤ d.digits.length := by
  have hmantissa := mantissa_ne_zero_of_not_whole hwhole
  have hnext := (h x hx rfl).2 rfl
  have hpos := hnext.pos hmantissa (mul_nonneg d.significand.cast_nonneg (by positivity))
  exact length_digits_shortest_le hmantissa .up ((isNext_iff_holds hx hmantissa hpos).1 hnext)

theorem roundsTo_shortest (hx : x.Canonical) (hmantissa : x.mantissa ≠ 0) (tie : Tie) :
    x.RoundsTo (x.shortest tie).value :=
  (roundsTo_iff hx ((holds_shortest hmantissa tie).pos hmantissa)).2
    (nearest_shortest hx hmantissa tie)

theorem plain_display (x : Finite) :
    ((Style.display.decimal x).displaySpelling x.negative).Plain := by
  cases hwhole : x.isWhole with
  | true =>
    rw [decimal_display_of_whole hwhole]
    exact Decimal.plain_of_whole rfl
  | false =>
    rw [decimal_display_of_not_whole hwhole]
    exact Decimal.plain_of_fraction (exponent_shortest_neg hwhole .up)
      (significand_shortest_mod_ten (mantissa_ne_zero_of_not_whole hwhole) .up)

end Finite

/-- The sign of a number is its first bit. -/
theorem negative_iff {x : Float} {parts : Finite} (h : shape x = .finite parts) :
    parts.negative = true ↔ 2 ^ 63 ≤ x.toBits.toNat := by
  have hlt := x.toBits.toNat_lt
  have hfirst : (x.toBits.toNat / Nat.pow 2 63 == 1) = true ↔ 2 ^ 63 ≤ x.toBits.toNat := by
    have hpow : Nat.pow 2 63 = 2 ^ 63 := rfl
    rw [hpow, beq_iff_eq]
    omega
  unfold shape at h
  dsimp only at h
  split at h
  · split at h <;> cases h
  · split at h <;> cases h <;> exact hfirst

/-- What can be read off the text of a finite number: the sign, all digits of a whole number,
and of any other number a decimal that is rounded to it, as short as there is one. -/
structure Prints (x : Float) (parts : Finite) (p : Spelling) : Prop where
  shape : shape x = .finite parts
  text : (Value.number x).text.toList = p.chars
  plain : p.Plain
  sign : p.negative = true ↔ 2 ^ 63 ≤ x.toBits.toNat
  whole : (∃ n : ℕ, parts.magnitude = n) → p.fraction = none ∧ p.denotes = parts.magnitude
  rounds : (¬∃ n : ℕ, parts.magnitude = n) → p.fraction.isSome ∧ parts.RoundsTo p.denotes
  fewest : (¬∃ n : ℕ, parts.magnitude = n) → ∀ d : Decimal, parts.RoundsTo d.value →
    p.significant.length ≤ d.digits.length

theorem prints_of_shape {x : Float} {parts : Finite} (h : shape x = .finite parts) :
    Prints x parts ((Style.display.decimal parts).displaySpelling parts.negative) := by
  have hbounded := Finite.bounded_of_shape h
  have htext : (Value.number x).text = Style.display.finiteText parts := by
    show Style.display.text x = _
    rw [Style.text, h]
  refine ⟨h, ?_, parts.plain_display, ?_, fun hwhole => ?_, fun hwhole => ?_, fun hwhole d hd => ?_⟩
  · rw [htext, Finite.toList_display, Decimal.chars_displaySpelling]
  · rw [Decimal.negative_displaySpelling]
    exact negative_iff h
  · have hwhole := parts.isWhole_iff.2 hwhole
    rw [Finite.decimal_display_of_whole hwhole, Decimal.denotes_displaySpelling]
    refine ⟨Decimal.fraction_displaySpelling_of_nonneg le_rfl, ?_⟩
    rw [Decimal.value, zpow_zero, mul_one, Finite.wholePart_eq_magnitude hwhole]
  · have hwhole := Bool.eq_false_iff.2 (mt parts.isWhole_iff.1 hwhole)
    rw [Finite.decimal_display_of_not_whole hwhole, Decimal.denotes_displaySpelling]
    exact ⟨Decimal.isSome_fraction_displaySpelling (Finite.exponent_shortest_neg hwhole .up),
      Finite.roundsTo_shortest hbounded.toCanonical
        (Finite.mantissa_ne_zero_of_not_whole hwhole) .up⟩
  · have hwhole := Bool.eq_false_iff.2 (mt parts.isWhole_iff.1 hwhole)
    have hmantissa := Finite.mantissa_ne_zero_of_not_whole hwhole
    rw [Finite.decimal_display_of_not_whole hwhole, Decimal.significant_displaySpelling
      (Finite.exponent_shortest_neg hwhole .up) (Finite.significand_shortest_pos hmantissa .up)]
    exact hd.length_digits_le hbounded.toCanonical hwhole

/-- Every finite number is printed without an exponent and without needless zeros, a whole one
with all its digits, and any other with the fewest that are rounded to it. Numbers with
different bits are printed differently. -/
theorem display_exact {x : Float} (h : x.isFinite) :
    (∃ parts p, Prints x parts p) ∧
      ∀ y : Float, y.toBits ≠ x.toBits → (Value.number y).text ≠ (Value.number x).text := by
  obtain ⟨parts, hshape⟩ := (isFinite_iff_exists_shape x).1 h
  refine ⟨⟨parts, _, prints_of_shape hshape⟩, fun y hne htext => hne ?_⟩
  rw [display_text_inj (x := y) (y := x) htext]

/-- Below a power of two the numbers stand twice as close, so that the sixteen digits that are
nearest to `2 ^ (-44)`, which end in `1`, are rounded to its neighbour. -/
theorem display_exact_power_of_two :
    let x := Float.ofBits 0x3d30000000000000
    x.isFinite ∧ (Value.number x).text = "0.00000000000005684341886080802" ∧
      (∃ p, Prints x ⟨false, 2 ^ 52, -96⟩ p) ∧
      ∀ y : Float, y.toBits ≠ x.toBits → (Value.number y).text ≠ (Value.number x).text := by
  intro x
  have hfinite : x.isFinite := by decide +kernel
  obtain ⟨⟨parts, p, hprints⟩, hdistinct⟩ := display_exact hfinite
  have hparts : shape x = .finite ⟨false, 2 ^ 52, -96⟩ := by decide +kernel
  obtain rfl := Shape.finite.inj (hprints.shape.symm.trans hparts)
  exact ⟨hfinite, by decide +kernel, ⟨p, hprints⟩, hdistinct⟩

end Number

end TreeScript
