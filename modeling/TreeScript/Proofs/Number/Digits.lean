import TreeScript.Number.Text

/-!
# Digits

The digits of a decimal are digits, and the first one is a zero only for zero itself
(`Decimal.head?_digits`). The last one is a zero only for multiples of ten
(`Decimal.getLast?_digits`). The shortest decimal of a number is zero only for zero
(`Finite.significand_shortest_pos`), since the interval that reads back as another
number keeps clear of zero.
-/

namespace TreeScript.Number

theorem digitChar_ne_zero : ∀ k < 10, k ≠ 0 → Nat.digitChar k ≠ '0' := by
  decide

theorem head?_toDigits {n : Nat} (h : 0 < n) : (Nat.toDigits 10 n).head? ≠ some '0' := by
  induction n using Nat.strongRecOn with
  | ind n ih =>
    rw [Nat.toDigits_eq_if (by omega)]
    split
    · rename_i hlt
      simpa using digitChar_ne_zero n hlt (by omega)
    · rename_i hge
      have hdiv : 0 < n / 10 := by omega
      have hhead := ih (n / 10) (by omega) hdiv
      have hne : Nat.toDigits 10 (n / 10) ≠ [] := Nat.toDigits_ne_nil
      obtain ⟨c, cs, hcs⟩ := List.exists_cons_of_ne_nil hne
      rw [hcs] at hhead ⊢
      exact hhead

theorem getLast?_toDigits {n : Nat} (h : n % 10 ≠ 0) :
    (Nat.toDigits 10 n).getLast? ≠ some '0' := by
  have hdigit := digitChar_ne_zero (n % 10) (Nat.mod_lt _ (by omega)) h
  rw [Nat.toDigits_eq_if (by omega)]
  split
  · rename_i hlt
    rw [Nat.mod_eq_of_lt hlt] at hdigit
    simpa using hdigit
  · simpa using hdigit

namespace Decimal

theorem isDigit_of_mem_digits {d : Decimal} {c : Char} (h : c ∈ d.digits) : c.isDigit :=
  Nat.isDigit_of_mem_toDigits (by omega) (by omega) h

theorem digits_ne_nil (d : Decimal) : d.digits ≠ [] :=
  Nat.toDigits_ne_nil

theorem head?_digits {d : Decimal} (h : 0 < d.significand) : d.digits.head? ≠ some '0' :=
  head?_toDigits h

theorem getLast?_digits {d : Decimal} (h : d.significand % 10 ≠ 0) :
    d.digits.getLast? ≠ some '0' :=
  getLast?_toDigits h

end Decimal

namespace Finite

variable {x : Finite}

theorem lower_pos (h : x.mantissa ≠ 0) : 0 < x.lower := by
  unfold lower
  split <;> omega

/-- Zero does not read back as another number. -/
theorem reaches_zero (h : x.mantissa ≠ 0) {unit : Nat} (hunit : 0 < unit) :
    x.reaches 0 unit = false := by
  have hpos := Nat.mul_pos (lower_pos h) hunit
  have hne : ¬x.lower * unit ≤ 0 := by omega
  unfold reaches
  split
  · simp only [hne, decide_false, Bool.false_and]
  · simp

/-- A point is taken from a grid only where it reads back. -/
theorem reaches_onGrid {tie : Tie} {k : Int} {point : Nat} (h : x.onGrid tie k = some point) :
    x.reaches (point * (Nat.pow 2 (2 - x.exponent).toNat * Nat.pow 10 k.toNat))
      (Nat.pow 2 (x.exponent - 2).toNat * Nat.pow 10 (-k).toNat) = true := by
  unfold onGrid at h
  dsimp only at h
  generalize Nat.pow 2 (x.exponent - 2).toNat * Nat.pow 10 (-k).toNat = unit at h ⊢
  generalize Nat.pow 2 (2 - x.exponent).toNat * Nat.pow 10 k.toNat = step at h ⊢
  generalize x.centre * unit / step = below at h
  split at h
  · cases h
  · rename_i hbelow _
    cases h
    exact hbelow
  · rename_i habove
    cases h
    exact habove
  · rename_i hbelow habove
    have hpoint : point = below ∨ point = below + 1 := by
      split at h
      · exact Or.inl (Option.some.inj h).symm
      · split at h
        · exact Or.inr (Option.some.inj h).symm
        · cases tie with
          | up => exact Or.inr (Option.some.inj h).symm
          | even =>
            have hpoint := (Option.some.inj h).symm
            split at hpoint
            · exact Or.inl hpoint
            · exact Or.inr hpoint
    rcases hpoint with rfl | rfl
    · exact hbelow
    · exact habove

theorem onGrid_pos (h : x.mantissa ≠ 0) {tie : Tie} {k : Int} {point : Nat}
    (hpoint : x.onGrid tie k = some point) : 0 < point := by
  have hunit : 0 < Nat.pow 2 (x.exponent - 2).toNat * Nat.pow 10 (-k).toNat :=
    Nat.mul_pos (Nat.pow_pos (by omega)) (Nat.pow_pos (by omega))
  have hreach := reaches_onGrid hpoint
  rcases Nat.eq_zero_or_pos point with rfl | hpos
  · rw [Nat.zero_mul, reaches_zero h hunit] at hreach
    cases hreach
  · exact hpos

theorem significand_scan_pos (h : x.mantissa ≠ 0) (tie : Tie) :
    ∀ steps, 0 < (x.scan tie steps).significand
  | 0 => by
    have hpos : 0 < x.mantissa := Nat.pos_of_ne_zero h
    exact Nat.mul_pos (Nat.mul_pos hpos (Nat.pow_pos (by omega))) (Nat.pow_pos (by omega))
  | steps + 1 => by
    rw [scan]
    split
    · rename_i hpoint
      exact onGrid_pos h hpoint
    · exact significand_scan_pos h tie steps

/-- Only zero has a shortest decimal that is zero. -/
theorem significand_shortest_pos (h : x.mantissa ≠ 0) (tie : Tie) :
    0 < (x.shortest tie).significand := by
  rw [shortest, if_neg h]
  exact significand_scan_pos h tie _

end Finite

end TreeScript.Number
