import Mathlib.Algebra.Group.Nat.Defs
import TreeScript.Number.Finite

/-!
# The bits of a number

The fields of a number's bits decide what kind of number it is (`unpack_cases`). In terms
of natural numbers, `isFinite_iff` says so of finite numbers, and `beq_zero_iff` finds the
two numbers that compare equal to zero.
-/

open Float.Model

namespace TreeScript.Number

/-! ## Fields -/

theorem toNat_unpackMantissa (b : BitVec Format.binary64.numBits) :
    (UnpackedFloat.unpackMantissa b).toNat = b.toNat % 2 ^ 52 := by
  simp [UnpackedFloat.unpackMantissa, BitVec.extractLsb_toNat]

theorem toNat_unpackExponent (b : BitVec Format.binary64.numBits) :
    (UnpackedFloat.unpackExponent b).toNat = b.toNat / 2 ^ 52 % 2 ^ 11 := by
  simp [UnpackedFloat.unpackExponent, BitVec.extractLsb_toNat, Nat.shiftRight_eq_div_pow]

theorem unpackExponent_eq_neg_one_iff (b : BitVec Format.binary64.numBits) :
    UnpackedFloat.unpackExponent b = -1#_ ↔ b.toNat / 2 ^ 52 % 2 ^ 11 = 2047 := by
  rw [← BitVec.toNat_inj, toNat_unpackExponent]
  simp

theorem unpackExponent_eq_zero_iff (b : BitVec Format.binary64.numBits) :
    UnpackedFloat.unpackExponent b = 0#_ ↔ b.toNat / 2 ^ 52 % 2 ^ 11 = 0 := by
  rw [← BitVec.toNat_inj, toNat_unpackExponent]
  simp

theorem unpackMantissa_eq_zero_iff (b : BitVec Format.binary64.numBits) :
    UnpackedFloat.unpackMantissa b = 0#_ ↔ b.toNat % 2 ^ 52 = 0 := by
  rw [← BitVec.toNat_inj, toNat_unpackMantissa]
  simp

theorem eq_of_toBits_eq {x y : Float} (h : x.toBits = y.toBits) : x = y := by
  obtain ⟨⟨b, hb⟩⟩ := x
  obtain ⟨⟨b', hb'⟩⟩ := y
  cases h
  rfl

/-! ## Kinds of number -/

/-- What a number unpacks to, by its exponent field. -/
theorem unpack_cases (b : BitVec Format.binary64.numBits) :
    (UnpackedFloat.unpackExponent b = -1#_ ∧
      ((∃ s, UnpackedFloat.unpack Format.binary64 b = .infinity s) ∨
        UnpackedFloat.unpack Format.binary64 b = .notANumber)) ∨
    (UnpackedFloat.unpackExponent b = 0#_ ∧ UnpackedFloat.unpackMantissa b = 0#_ ∧
      ∃ s, UnpackedFloat.unpack Format.binary64 b = .zero s) ∨
    (UnpackedFloat.unpackExponent b ≠ -1#_ ∧
      ¬(UnpackedFloat.unpackExponent b = 0#_ ∧ UnpackedFloat.unpackMantissa b = 0#_) ∧
      ∃ s m e h, UnpackedFloat.unpack Format.binary64 b = .finite s m e h) := by
  by_cases hfull : UnpackedFloat.unpackExponent b = -1#_
  · refine .inl ⟨hfull, ?_⟩
    by_cases hfrac : UnpackedFloat.unpackMantissa b = 0#_
    · exact .inl ⟨_, (if_pos hfull).trans (if_pos hfrac)⟩
    · exact .inr ((if_pos hfull).trans (if_neg hfrac))
  · refine .inr ?_
    by_cases hexp : UnpackedFloat.unpackExponent b = 0#_
    · by_cases hfrac : UnpackedFloat.unpackMantissa b = 0#_
      · exact .inl ⟨hexp, hfrac, _, (if_neg hfull).trans ((if_pos hexp).trans (dif_pos hfrac))⟩
      · exact .inr ⟨hfull, fun h => hfrac h.2, _, _, _, _,
          (if_neg hfull).trans ((if_pos hexp).trans (dif_neg hfrac))⟩
    · exact .inr ⟨hfull, fun h => hexp h.1, _, _, _, _, (if_neg hfull).trans (if_neg hexp)⟩

/-- A number is finite unless its exponent field is full. -/
theorem isFinite_iff (x : Float) : x.isFinite ↔ x.toBits.toNat / 2 ^ 52 % 2 ^ 11 ≠ 2047 := by
  show (UnpackedFloat.unpack Format.binary64 x.toBits.toBitVec).isFinite ↔ _
  rw [← UInt64.toNat_toBitVec, Ne, ← unpackExponent_eq_neg_one_iff]
  obtain ⟨hfull, ⟨s, h⟩ | h⟩ | ⟨hexp, hfrac, s, h⟩ | ⟨hfull, hne, s, m, e, hm, h⟩ :=
    unpack_cases x.toBits.toBitVec
  · rw [h]
    exact iff_of_false Bool.false_ne_true (not_not_intro hfull)
  · rw [h]
    exact iff_of_false Bool.false_ne_true (not_not_intro hfull)
  · rw [h, hexp]
    exact iff_of_true rfl (by decide)
  · rw [h]
    exact iff_of_true rfl hfull

theorem unpack_eq_zero_iff (b : BitVec Format.binary64.numBits) :
    (∃ s, UnpackedFloat.unpack Format.binary64 b = .zero s) ↔
      b.toNat / 2 ^ 52 % 2 ^ 11 = 0 ∧ b.toNat % 2 ^ 52 = 0 := by
  rw [← unpackExponent_eq_zero_iff, ← unpackMantissa_eq_zero_iff]
  constructor
  · rintro ⟨s', hzero⟩
    obtain ⟨-, ⟨s, h⟩ | h⟩ | ⟨hexp, hfrac, -⟩ | ⟨-, -, s, m, e, hm, h⟩ := unpack_cases b
    · cases h.symm.trans hzero
    · cases h.symm.trans hzero
    · exact ⟨hexp, hfrac⟩
    · cases h.symm.trans hzero
  · rintro ⟨hexp, hfrac⟩
    obtain ⟨hfull, -⟩ | ⟨-, -, hzero⟩ | ⟨-, hne, -⟩ := unpack_cases b
    · rw [hexp] at hfull
      exact absurd hfull (by decide)
    · exact hzero
    · exact absurd ⟨hexp, hfrac⟩ hne

theorem compare_zero_iff (u : UnpackedFloat) (s : UnpackedFloat.Sign) :
    u.compare (.zero s) = some .eq ↔ ∃ s', u = .zero s' := by
  constructor
  · intro hcompare
    cases u with
    | notANumber => cases hcompare
    | infinity s' => cases s' <;> cases hcompare
    | zero s' => exact ⟨s', rfl⟩
    | finite s' m e h => cases s' <;> cases hcompare
  · rintro ⟨s', rfl⟩
    rfl

/-- The two zeros, and no other numbers, compare equal to zero. -/
theorem beq_zero_iff (x : Float) : (x == 0) = true ↔ x = 0.0 ∨ x = -0.0 := by
  obtain ⟨s, hzero⟩ : ∃ s, (0 : Float).toModel.unpack = .zero s :=
    (unpack_eq_zero_iff _).2 (by decide +kernel)
  show (x.toModel.unpack.compare (0 : Float).toModel.unpack == some .eq) = true ↔ _
  rw [hzero, beq_iff_eq, compare_zero_iff]
  refine (unpack_eq_zero_iff x.toBits.toBitVec).trans ?_
  rw [UInt64.toNat_toBitVec]
  constructor
  · rintro ⟨hexp, hfrac⟩
    have hlt := x.toBits.toNat_lt
    have hbits : x.toBits.toNat = 0 ∨ x.toBits.toNat = 2 ^ 63 := by omega
    refine hbits.imp (fun h => eq_of_toBits_eq ?_) fun h => eq_of_toBits_eq ?_
    · exact UInt64.toNat_inj.1 (h.trans (by decide +kernel))
    · exact UInt64.toNat_inj.1 (h.trans (by decide +kernel))
  · rintro (rfl | rfl) <;> decide +kernel

end TreeScript.Number
