import TreeScript.Proofs.Document.Spelled
import TreeScript.Proofs.Number.Parts

/-!
# Numbers as programs print them

Two numbers are printed alike only if they are the same (`display_text_inj`). The text of a
finite number has a sign and digits with a point at most. What the digits denote
(`denoted`) is the decimal that stands for the number, and the number is next to it
(`Finite.holds_decimal_display`).
-/

namespace TreeScript.Number

/-! ## Digits with a point -/

/-- What digits denote that have a point at most. -/
def denoted (cs : List Char) : ℚ :=
  let behind := (cs.dropWhile (· ≠ '.')).tail
  Nat.ofDigitChars 10 (cs.takeWhile (· ≠ '.') ++ behind) 0 / 10 ^ behind.length

theorem ne_point_of_isDigit {c : Char} (h : c.isDigit) : c ≠ '.' := by
  rintro rfl
  cases h

theorem denoted_of_digits {whole : List Char} (h : ∀ c ∈ whole, c.isDigit) :
    denoted whole = Nat.ofDigitChars 10 whole 0 := by
  have hkeep : ∀ c ∈ whole, decide (c ≠ '.') = true := fun c hc =>
    decide_eq_true (ne_point_of_isDigit (h c hc))
  have htake : whole.takeWhile (· ≠ '.') = whole := List.takeWhile_eq_self_iff.2 hkeep
  have hdrop : whole.dropWhile (· ≠ '.') = [] := List.dropWhile_eq_nil_iff.2 hkeep
  simp only [denoted, htake, hdrop, List.tail_nil, List.append_nil, List.length_nil, pow_zero,
    div_one]

theorem denoted_of_point {whole behind : List Char} (h : ∀ c ∈ whole, c.isDigit) :
    denoted (whole ++ '.' :: behind) =
      Nat.ofDigitChars 10 (whole ++ behind) 0 / 10 ^ behind.length := by
  have hkeep : ∀ c ∈ whole, decide (c ≠ '.') = true := fun c hc =>
    decide_eq_true (ne_point_of_isDigit (h c hc))
  have htake : (whole ++ '.' :: behind).takeWhile (· ≠ '.') = whole := by
    rw [List.takeWhile_append_of_pos hkeep, List.takeWhile_cons_of_neg (by simp),
      List.append_nil]
  have hdrop : (whole ++ '.' :: behind).dropWhile (· ≠ '.') = '.' :: behind := by
    rw [List.dropWhile_append_of_pos hkeep, List.dropWhile_cons_of_neg (by simp)]
  simp only [denoted, htake, hdrop, List.tail_cons]

namespace Decimal

/-- Digits of which as many stand behind the point as the decimal has places. -/
theorem ofDigitChars_div_pow (d : Decimal) {ds : List Char} {places : ℕ}
    (hds : Nat.ofDigitChars 10 ds 0 = d.significand) (hplaces : d.exponent = -places) :
    (Nat.ofDigitChars 10 ds 0 : ℚ) / 10 ^ places = d.value := by
  rw [hds, value, hplaces, zpow_neg, zpow_natCast, div_eq_mul_inv]

theorem isDigit_of_mem_replicate {n : ℕ} {c : Char} (h : c ∈ List.replicate n '0') :
    c.isDigit := by
  rw [List.eq_of_mem_replicate h]
  rfl

/-- The text of a decimal has digits, and more digits behind a point if there is one. They
denote the decimal. -/
theorem positionalText_cases (d : Decimal) : ∃ whole behind : List Char, whole ≠ [] ∧
    (∀ c ∈ whole, c.isDigit) ∧ (∀ c ∈ behind, c.isDigit) ∧
    ((d.positionalText "").toList = whole ∧ behind = [] ∨
      (d.positionalText "").toList = whole ++ '.' :: behind) ∧
    (Nat.ofDigitChars 10 (whole ++ behind) 0 : ℚ) / 10 ^ behind.length = d.value := by
  have hdigits : ∀ c ∈ d.digits, c.isDigit := fun c => isDigit_of_mem_digits
  unfold positionalText
  dsimp only
  split
  · rename_i hexp
    refine ⟨d.digits ++ List.replicate d.exponent.toNat '0', [], ?_, ?_, by simp,
      .inl ⟨by simp, rfl⟩, ?_⟩
    · exact List.append_ne_nil_of_left_ne_nil d.digits_ne_nil _
    · exact List.forall_mem_append.2 ⟨hdigits, fun c => isDigit_of_mem_replicate⟩
    · have hpow : (10 : ℚ) ^ d.exponent = 10 ^ d.exponent.toNat := by
        rw [← zpow_natCast, Int.toNat_of_nonneg hexp]
      rw [List.append_nil, Nat.ofDigitChars_append, ofDigitChars_digits,
        Nat.ofDigitChars_replicate_zero, List.length_nil, pow_zero, div_one, value, hpow,
        mul_comm]
      push_cast
      rfl
  · rename_i hexp
    split
    · rename_i hplaces
      refine ⟨d.digits.take (d.digits.length - (-d.exponent).toNat),
        d.digits.drop (d.digits.length - (-d.exponent).toNat), ?_, ?_, ?_, .inr (by simp), ?_⟩
      · intro hnil
        have hlength := congrArg List.length hnil
        rw [List.length_take, List.length_nil] at hlength
        omega
      · exact fun c hc => hdigits c (List.mem_of_mem_take hc)
      · exact fun c hc => hdigits c (List.mem_of_mem_drop hc)
      · rw [List.take_append_drop, List.length_drop]
        exact d.ofDigitChars_div_pow d.ofDigitChars_digits (by omega)
    · rename_i hplaces
      refine ⟨['0'], List.replicate ((-d.exponent).toNat - d.digits.length) '0' ++ d.digits,
        List.cons_ne_nil _ _, List.forall_mem_singleton.2 rfl, ?_, .inr (by simp), ?_⟩
      · exact List.forall_mem_append.2 ⟨fun c => isDigit_of_mem_replicate, hdigits⟩
      · refine d.ofDigitChars_div_pow ?_ ?_
        · show Nat.ofDigitChars 10 (List.replicate 1 '0' ++ _) 0 = _
          rw [Document.ofDigitChars_zeros_append, Document.ofDigitChars_zeros_append,
            ofDigitChars_digits]
        · rw [List.length_append, List.length_replicate]
          omega

/-- The text of a decimal denotes it. -/
theorem denoted_positionalText (d : Decimal) :
    denoted (d.positionalText "").toList = d.value := by
  obtain ⟨whole, behind, -, hwhole, -, ⟨htext, rfl⟩ | htext, hvalue⟩ := d.positionalText_cases
  · rw [htext, denoted_of_digits hwhole, ← hvalue, List.append_nil, List.length_nil, pow_zero,
      div_one]
  · rw [htext, denoted_of_point hwhole, hvalue]

/-- The text of a decimal starts with a digit. -/
theorem exists_positionalText (d : Decimal) :
    ∃ c cs, (d.positionalText "").toList = c :: cs ∧ c.isDigit ∧ ∀ c ∈ cs, c.isDigit ∨ c = '.' := by
  obtain ⟨whole, behind, hne, hwhole, hbehind, htext, -⟩ := d.positionalText_cases
  obtain ⟨c, cs, rfl⟩ := List.exists_cons_of_ne_nil hne
  rw [List.forall_mem_cons] at hwhole
  rcases htext with ⟨htext, -⟩ | htext
  · exact ⟨c, cs, htext, hwhole.1, fun c hc => .inl (hwhole.2 c hc)⟩
  · refine ⟨c, cs ++ '.' :: behind, htext, hwhole.1, ?_⟩
    refine List.forall_mem_append.2 ⟨fun c hc => .inl (hwhole.2 c hc), ?_⟩
    exact List.forall_mem_cons.2 ⟨.inr rfl, fun c hc => .inl (hbehind c hc)⟩

end Decimal

/-! ## Printed numbers -/

namespace Finite

variable {x y : Finite}

/-- A whole number has no digits behind the point. -/
theorem wholePart_eq_magnitude (h : x.isWhole = true) : (x.wholePart : ℚ) = x.magnitude := by
  have hmod : x.mantissa % Nat.pow 2 (-x.exponent).toNat = 0 := beq_iff_eq.1 h
  have hdvd : 2 ^ (-x.exponent).toNat ∣ x.mantissa * 2 ^ x.exponent.toNat :=
    Dvd.dvd.mul_right (Nat.dvd_of_mod_eq_zero hmod) _
  have htwo := pow_toNat_div_pow_toNat (two_ne_zero : (2 : ℚ) ≠ 0) x.exponent
  unfold wholePart magnitude
  simp only [Nat.pow_eq]
  rw [Nat.cast_div hdvd (by positivity)]
  push_cast
  rw [mul_div_assoc, htwo]

/-- The decimal that is printed for a number reads back as the number. -/
theorem holds_decimal_display (hx : x.mantissa ≠ 0) :
    x.Holds (Style.display.decimal x).value := by
  unfold Style.decimal
  split
  · rename_i h
    have hvalue : (⟨x.wholePart, 0⟩ : Decimal).value = x.magnitude := by
      rw [← wholePart_eq_magnitude h, Decimal.value, zpow_zero, mul_one]
    rw [hvalue]
    exact holds_magnitude hx
  · exact holds_shortest hx _

theorem value_decimal_display_of_zero (hx : x.mantissa = 0) :
    (Style.display.decimal x).value = 0 := by
  have hwhole : x.isWhole = true := by simp [isWhole, hx]
  have hpart : x.wholePart = 0 := by simp [wholePart, hx]
  rw [Style.decimal, hwhole, hpart]
  exact zero_mul _

/-- Numbers on one side of zero that are printed with one decimal are the same. -/
theorem eq_of_decimal_display (hx : x.Bounded) (hy : y.Bounded) (hsign : x.negative = y.negative)
    (h : (Style.display.decimal x).value = (Style.display.decimal y).value) : x = y := by
  by_cases hmx : x.mantissa = 0
  · have hmy : y.mantissa = 0 := by
      by_contra hmy
      have hpos := (holds_decimal_display hmy).pos hmy
      rw [← h, value_decimal_display_of_zero hmx] at hpos
      exact lt_irrefl _ hpos
    have hexp : ∀ {z : Finite}, z.Bounded → z.mantissa = 0 → z.exponent = -1074 :=
      fun hz hm => hz.normal.resolve_left (by rw [hm]; norm_num)
    obtain ⟨negative, mantissa, exponent⟩ := x
    obtain ⟨negative', mantissa', exponent'⟩ := y
    obtain rfl : negative = negative' := hsign
    obtain rfl : mantissa = 0 := hmx
    obtain rfl : mantissa' = 0 := hmy
    obtain rfl : exponent = -1074 := hexp hx rfl
    obtain rfl : exponent' = -1074 := hexp hy rfl
    rfl
  · have hmy : y.mantissa ≠ 0 := by
      intro hmy
      have hpos := (holds_decimal_display hmx).pos hmx
      rw [h, value_decimal_display_of_zero hmy] at hpos
      exact lt_irrefl _ hpos
    rw [← nearest_of_holds hx.toCanonical hmx (holds_decimal_display hmx),
      ← nearest_of_holds hy.toCanonical hmy (holds_decimal_display hmy), h, hsign]

/-- A finite number is printed as a sign and digits. -/
theorem toList_display (x : Finite) : (Style.display.finiteText x).toList =
    (if x.negative then ['-'] else []) ++
      ((Style.display.decimal x).positionalText "").toList := by
  have htext : Style.display.finiteText x = (if x.negative then "-" else "") ++
      (Style.display.decimal x).positionalText "" := rfl
  rw [htext, String.toList_append]
  congr 1
  split <;> rfl

/-- The sign and the digits are read off the text. -/
theorem eq_of_display_eq (hx : x.Bounded) (hy : y.Bounded)
    (h : Style.display.finiteText x = Style.display.finiteText y) : x = y := by
  have htext := congrArg String.toList h
  rw [toList_display, toList_display] at htext
  obtain ⟨c, cs, hc, hdigit, -⟩ := (Style.display.decimal x).exists_positionalText
  obtain ⟨c', cs', hc', hdigit', -⟩ := (Style.display.decimal y).exists_positionalText
  have hdash : ∀ {c : Char}, c.isDigit → c ≠ '-' := by
    rintro _ hd rfl
    cases hd
  have hsplit : x.negative = y.negative ∧ c :: cs = c' :: cs' := by
    rw [hc, hc'] at htext
    cases hx : x.negative <;> cases hy : y.negative <;> rw [hx, hy] at htext
    · exact ⟨rfl, htext⟩
    · exact absurd (List.cons.inj htext).1 (hdash hdigit)
    · exact absurd (List.cons.inj htext).1.symm (hdash hdigit')
    · exact ⟨rfl, (List.cons.inj htext).2⟩
  refine eq_of_decimal_display hx hy hsplit.1 ?_
  rw [← Decimal.denoted_positionalText, ← Decimal.denoted_positionalText, hc, hc', hsplit.2]

/-- A finite number is printed with digits, a point and a sign. -/
theorem forall_mem_display (x : Finite) : ∀ c ∈ (Style.display.finiteText x).toList,
    c.isDigit ∨ c = '.' ∨ c = '-' := by
  obtain ⟨c, cs, hc, hdigit, hcs⟩ := (Style.display.decimal x).exists_positionalText
  rw [toList_display, hc]
  refine List.forall_mem_append.2 ⟨?_, List.forall_mem_cons.2 ⟨.inl hdigit, ?_⟩⟩
  · intro c hc
    split at hc
    · exact .inr (.inr (List.mem_singleton.1 hc))
    · cases hc
  · exact fun c hc => (hcs c hc).imp_right .inl

theorem exists_isDigit_display (x : Finite) :
    ∃ c ∈ (Style.display.finiteText x).toList, c.isDigit := by
  obtain ⟨c, cs, hc, hdigit, -⟩ := (Style.display.decimal x).exists_positionalText
  refine ⟨c, ?_, hdigit⟩
  rw [toList_display, hc]
  exact List.mem_append_right _ List.mem_cons_self

/-- A finite number is not printed as a word without digits. -/
theorem display_ne_of_no_digits (x : Finite) {word : String}
    (h : word.toList.any Char.isDigit = false) : Style.display.finiteText x ≠ word := by
  rintro rfl
  obtain ⟨c, hmem, hdigit⟩ := x.exists_isDigit_display
  exact List.any_eq_false.1 h c hmem hdigit

end Finite

/-- A number that is not finite is printed as one of three words. -/
theorem display_text_cases (x : Float) :
    (∃ parts, shape x = .finite parts ∧ Style.display.text x = Style.display.finiteText parts) ∨
      Style.display.text x = "NaN" ∧ shape x = .notANumber ∨
      Style.display.text x = "inf" ∧ shape x = .infinite false ∨
      Style.display.text x = "-inf" ∧ shape x = .infinite true := by
  unfold Style.text
  cases shape x with
  | finite parts => exact .inl ⟨parts, rfl, rfl⟩
  | notANumber => exact .inr (.inl ⟨rfl, rfl⟩)
  | infinite negative =>
    cases negative with
    | false => exact .inr (.inr (.inl ⟨rfl, rfl⟩))
    | true => exact .inr (.inr (.inr ⟨rfl, rfl⟩))

/-- Numbers that are printed alike are the same. -/
theorem display_text_inj {x y : Float} (h : Style.display.text x = Style.display.text y) :
    x = y := by
  refine eq_of_shape_eq ?_
  obtain ⟨p, hp, hpx⟩ | hx := display_text_cases x
  · obtain ⟨p', hp', hpy⟩ | hy := display_text_cases y
    · rw [hpx, hpy] at h
      rw [hp, hp', Finite.eq_of_display_eq (Finite.bounded_of_shape hp)
        (Finite.bounded_of_shape hp') h]
    · rw [hpx] at h
      obtain ⟨hy, -⟩ | ⟨hy, -⟩ | ⟨hy, -⟩ := hy <;>
        exact absurd (h.trans hy) (p.display_ne_of_no_digits rfl)
  · obtain ⟨p', hp', hpy⟩ | hy := display_text_cases y
    · rw [hpy] at h
      obtain ⟨hx, -⟩ | ⟨hx, -⟩ | ⟨hx, -⟩ := hx <;>
        exact absurd (h.symm.trans hx) (p'.display_ne_of_no_digits rfl)
    · obtain ⟨hx, hsx⟩ | ⟨hx, hsx⟩ | ⟨hx, hsx⟩ := hx <;>
        obtain ⟨hy, hsy⟩ | ⟨hy, hsy⟩ | ⟨hy, hsy⟩ := hy <;>
        first
        | exact hsx.trans hsy.symm
        | exact absurd (hx.symm.trans (h.trans hy)) (by decide)

end TreeScript.Number
