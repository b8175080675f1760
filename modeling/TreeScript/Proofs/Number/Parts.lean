import TreeScript.Proofs.Number.Bits
import TreeScript.Proofs.Number.Rounding

/-!
# Numbers and their parts

The parts of a number are those that arithmetic unpacks it to (`unpack_toModel`), and a
number is no more than them (`eq_of_shape_eq`). Parts within bounds are those of a number
(`Finite.shape_toFloat`). So what is known of parts is known of numbers: products and
quotients are rounded once (`mul_eq`, `div_eq`), and so is a natural number
(`toFloat_ofNat`), and the result is a number unless it is too large
(`Finite.bounded_nearest`).
-/

open Float.Model UnpackedFloat

namespace TreeScript.Number

def Shape.unpacked : Shape → UnpackedFloat
  | .finite parts => parts.unpacked
  | .infinite negative => .infinity (Finite.sign negative)
  | .notANumber => .notANumber

theorem toNat_unpackSign (b : BitVec Format.binary64.numBits) :
    (unpackSign b).toNat = b.toNat / 2 ^ 63 := by
  have hlt : b.toNat < 2 ^ 64 := b.isLt
  simp [unpackSign, BitVec.extractLsb_toNat, Nat.shiftRight_eq_div_pow]
  omega

theorem ofBitVec_unpackSign (b : BitVec Format.binary64.numBits) :
    Sign.ofBitVec (unpackSign b) = Finite.sign (b.toNat / Nat.pow 2 63 == 1) := by
  have hnat := toNat_unpackSign b
  have hlt : b.toNat < 2 ^ 64 := b.isLt
  have hpow : Nat.pow 2 63 = 2 ^ 63 := rfl
  rw [hpow, ← hnat]
  unfold Sign.ofBitVec Finite.sign
  have hcases : ∀ v : BitVec 1, v = 0#1 ∨ v = 1#1 := by decide
  rcases hcases (unpackSign b) with h | h <;> rw [h] <;> rfl

/-- The parts of a number are those that it unpacks to. -/
theorem unpack_toModel (x : Float) : x.toModel.unpack = (shape x).unpacked := by
  obtain ⟨b, hb⟩ : ∃ b : BitVec Format.binary64.numBits, x.toBits.toBitVec = b := ⟨_, rfl⟩
  have hbits : x.toBits.toNat = b.toNat := by rw [← hb]; rfl
  have hunpack : x.toModel.unpack = UnpackedFloat.unpack Format.binary64 b := by rw [← hb]; rfl
  rw [hunpack]
  unfold UnpackedFloat.unpack shape
  dsimp only
  rw [ofBitVec_unpackSign, hbits]
  have hfulliff : unpackExponent b = -1#_ ↔ b.toNat / Nat.pow 2 52 % Nat.pow 2 11 = 2047 :=
    unpackExponent_eq_neg_one_iff b
  have hexpiff : unpackExponent b = 0#_ ↔ b.toNat / Nat.pow 2 52 % Nat.pow 2 11 = 0 :=
    unpackExponent_eq_zero_iff b
  have hfraciff : unpackMantissa b = 0#_ ↔ b.toNat % Nat.pow 2 52 = 0 :=
    unpackMantissa_eq_zero_iff b
  by_cases hfull : unpackExponent b = -1#_
  · rw [if_pos hfull, if_pos (hfulliff.1 hfull)]
    by_cases hfrac : unpackMantissa b = 0#_
    · rw [if_pos hfrac, if_pos (hfraciff.1 hfrac)]
      rfl
    · rw [if_neg hfrac, if_neg (mt hfraciff.2 hfrac)]
      rfl
  rw [if_neg hfull, if_neg (mt hfulliff.2 hfull)]
  by_cases hexp : unpackExponent b = 0#_
  · rw [if_pos hexp, if_pos (hexpiff.1 hexp)]
    by_cases hfrac : unpackMantissa b = 0#_
    · rw [dif_pos hfrac]
      show _ = Finite.unpacked _
      rw [Finite.unpacked, dif_pos (hfraciff.1 hfrac)]
    · rw [dif_neg hfrac]
      refine Eq.trans ?_ (dif_neg (mt hfraciff.2 hfrac)).symm
      simp only [hexp, toNat_unpackMantissa]
      rfl
  · rw [if_neg hexp, if_neg (mt hexpiff.2 hexp)]
    have hmantissa : (1#1 ++ unpackMantissa b).toNat = Nat.pow 2 52 + b.toNat % Nat.pow 2 52 := by
      rw [BitVec.toNat_append, ← Nat.shiftLeft_add_eq_or_of_lt (unpackMantissa b).isLt,
        toNat_unpackMantissa]
      rfl
    have hpos : Nat.pow 2 52 + b.toNat % Nat.pow 2 52 ≠ 0 := by
      have : 0 < Nat.pow 2 52 := by decide
      omega
    refine Eq.trans ?_ (dif_neg hpos).symm
    simp only [hmantissa, toNat_unpackExponent]
    rfl

/-- A number is what it unpacks to. -/
theorem eq_of_unpack_eq {x y : Float} (h : x.toModel.unpack = y.toModel.unpack) : x = y := by
  have hbits : x.toModel.toBits.toBitVec = y.toModel.toBits.toBitVec := by
    rw [← pack_unpack_of_valid x.toModel.valid, ← pack_unpack_of_valid y.toModel.valid]
    exact congrArg (UnpackedFloat.pack Format.binary64) h
  exact eq_of_toBits_eq (UInt64.toBitVec_inj.1 hbits)

/-- A number is its parts. -/
theorem eq_of_shape_eq {x y : Float} (h : shape x = shape y) : x = y :=
  eq_of_unpack_eq (by rw [unpack_toModel, unpack_toModel, h])

namespace Finite

/-- The parts that numbers have. -/
structure Bounded (x : Finite) : Prop extends Canonical x where
  max : x.exponent ≤ 971

/-- The same distance from zero, on one side or the other. -/
def signed (x : Finite) (negative : Bool) : Finite :=
  { x with negative }

theorem Bounded.signed {x : Finite} (h : x.Bounded) (negative : Bool) :
    (x.signed negative).Bounded :=
  ⟨⟨h.lt, h.min, h.normal⟩, h.max⟩

/-- Both signs are rounded alike. -/
theorem nearest_eq_signed (negative negative' : Bool) (q : ℚ) :
    nearest negative q = (nearest negative' q).signed negative := by
  unfold nearest
  dsimp only
  split <;> rfl

theorem bounded_of_shape {x : Float} {parts : Finite} (h : shape x = .finite parts) :
    parts.Bounded := by
  unfold shape at h
  dsimp only at h
  have hfrac : x.toBits.toNat % Nat.pow 2 52 < 2 ^ 52 := Nat.mod_lt _ (by decide)
  have hexp : x.toBits.toNat / Nat.pow 2 52 % Nat.pow 2 11 < 2 ^ 11 := Nat.mod_lt _ (by decide)
  have hpow : Nat.pow 2 52 = 2 ^ 52 := rfl
  generalize x.toBits.toNat / Nat.pow 2 52 % Nat.pow 2 11 = field at h hexp
  generalize x.toBits.toNat % Nat.pow 2 52 = fraction at h hfrac
  split at h
  · split at h <;> cases h
  · split at h
    · cases h
      exact ⟨⟨by dsimp only; omega, le_rfl, Or.inr rfl⟩, by norm_num⟩
    · cases h
      exact ⟨⟨by dsimp only; omega, by dsimp only; omega, Or.inl (by dsimp only; omega)⟩,
        by dsimp only; omega⟩

/-- The number with the given parts. -/
def toFloat (x : Finite) : Float :=
  .ofModel (.pack x.unpacked)

theorem toFloat_of_shape {x : Float} {parts : Finite} (h : shape x = .finite parts) :
    parts.toFloat = x := by
  have hunpack : x.toModel.unpack = parts.unpacked := by rw [unpack_toModel, h]; rfl
  refine eq_of_toBits_eq (UInt64.toBitVec_inj.1 ?_)
  show UnpackedFloat.pack Format.binary64 parts.unpacked = x.toModel.toBits.toBitVec
  rw [← hunpack]
  exact pack_unpack_of_valid x.toModel.valid

/-- The fields of a packed number. -/
theorem toNat_packComponents (negative : Bool) (e : BitVec 11) (m : BitVec 52) :
    (packComponents Format.binary64 (sign negative) e m).toNat =
      (if negative then 1 else 0) * 2 ^ 63 + e.toNat * 2 ^ 52 + m.toNat := by
  have hsign : (sign negative).toBitVec.toNat = if negative then 1 else 0 := by
    cases negative <;> rfl
  show ((sign negative).toBitVec ++ e ++ m).toNat = _
  rw [BitVec.toNat_append, ← Nat.shiftLeft_add_eq_or_of_lt m.isLt, BitVec.toNat_append,
    ← Nat.shiftLeft_add_eq_or_of_lt e.isLt, hsign, Nat.shiftLeft_eq, Nat.shiftLeft_eq]
  ring

theorem shape_of_fields {x : Float} {negative : Bool} {field fraction : ℕ} (hfield : field < 2047)
    (hfraction : fraction < 2 ^ 52) (hbits : x.toBits.toNat =
      (if negative then 1 else 0) * 2 ^ 63 + field * 2 ^ 52 + fraction) :
    shape x = .finite (if field = 0 then ⟨negative, fraction, -1074⟩
      else ⟨negative, 2 ^ 52 + fraction, field - 1075⟩) := by
  have hnegative : (x.toBits.toNat / Nat.pow 2 63 == 1) = negative := by
    have hpow : Nat.pow 2 63 = 2 ^ 63 := rfl
    rw [hbits, hpow]
    cases negative
    · rw [if_neg Bool.false_ne_true]
      exact beq_false_of_ne (by omega)
    · rw [if_pos rfl]
      exact beq_iff_eq.2 (by omega)
  have hexp : x.toBits.toNat / Nat.pow 2 52 % Nat.pow 2 11 = field := by
    show x.toBits.toNat / 2 ^ 52 % 2 ^ 11 = field
    rw [hbits]
    cases negative <;> simp only [Bool.false_eq_true, if_true, if_false] <;> omega
  have hfrac : x.toBits.toNat % Nat.pow 2 52 = fraction := by
    show x.toBits.toNat % 2 ^ 52 = fraction
    rw [hbits]
    cases negative <;> simp only [Bool.false_eq_true, if_true, if_false] <;> omega
  unfold shape
  dsimp only
  rw [hnegative, hexp, hfrac, if_neg (by omega)]
  split <;> rfl

theorem pack_finite {s : Sign} {m : ℕ} {e : ℤ} (hm : 0 < m) (he : (e + 1023 + 52).toNat < 2047) :
    UnpackedFloat.pack Format.binary64 (.finite s m e hm) = packComponents Format.binary64 s
      (if m.log2 + 1 = 53 then BitVec.ofNat 11 (e + 1023 + 52).toNat else 0#11)
      (BitVec.ofNat 52 m) := by
  show (if 2048 ≤ (e + 1023 + 52).toNat + 1 then _ else if m.log2 + 1 = 53 then
    packComponents Format.binary64 s (BitVec.ofNat 11 (e + 1023 + 52).toNat) (BitVec.ofNat 52 m)
    else packComponents Format.binary64 s 0#11 (BitVec.ofNat 52 m)) = _
  rw [if_neg (by omega)]
  split <;> rfl

/-- The number with given parts has them. -/
theorem shape_toFloat {x : Finite} (h : x.Bounded) : shape x.toFloat = .finite x := by
  obtain ⟨negative, mantissa, exponent⟩ := x
  obtain ⟨⟨hlt, hmin, hnormal⟩, hmax⟩ := h
  dsimp only at hlt hmin hnormal hmax
  have hbits : ∀ {e : BitVec 11} {m : BitVec 52},
      UnpackedFloat.pack Format.binary64 (unpacked ⟨negative, mantissa, exponent⟩) =
        packComponents Format.binary64 (sign negative) e m →
      (toFloat ⟨negative, mantissa, exponent⟩).toBits.toNat =
        (if negative then 1 else 0) * 2 ^ 63 + e.toNat * 2 ^ 52 + m.toNat := fun heq => by
    rw [← toNat_packComponents, ← heq]
    rfl
  rcases Nat.eq_zero_or_pos mantissa with rfl | hpos
  · obtain rfl : exponent = -1074 := hnormal.resolve_left (by norm_num)
    exact shape_of_fields (by norm_num) (by norm_num) (hbits (e := 0#11) (m := 0#52) rfl)
  have hunpacked : unpacked ⟨negative, mantissa, exponent⟩ =
      .finite (sign negative) mantissa exponent hpos := dif_neg hpos.ne'
  have hexp : (exponent + 1023 + 52).toNat < 2047 := by omega
  have hfields := hbits ((congrArg _ hunpacked).trans (pack_finite hpos hexp))
  rw [BitVec.toNat_ofNat] at hfields
  by_cases hbig : 2 ^ 52 ≤ mantissa
  · have hlog : mantissa.log2 + 1 = 53 := by
      have h₁ := (Nat.le_log2 hpos.ne').2 hbig
      have h₂ := (Nat.log2_lt hpos.ne').2 hlt
      omega
    rw [if_pos hlog, BitVec.toNat_ofNat, Nat.mod_eq_of_lt (by omega)] at hfields
    rw [shape_of_fields (by omega) (Nat.mod_lt _ (by norm_num)) hfields, if_neg (by omega)]
    congr 2 <;> omega
  · obtain rfl : exponent = -1074 := hnormal.resolve_left hbig
    have hlog : ¬mantissa.log2 + 1 = 53 := by
      have := (Nat.log2_lt hpos.ne').2 (Nat.lt_of_not_le hbig)
      omega
    rw [if_neg hlog, Nat.mod_eq_of_lt (by omega)] at hfields
    exact shape_of_fields (by norm_num) (by omega) hfields

theorem toFloat_inj {x y : Finite} (hx : x.Bounded) (hy : y.Bounded) :
    x.toFloat = y.toFloat ↔ x = y := by
  refine ⟨fun h => ?_, congrArg toFloat⟩
  have hshape := shape_toFloat hx
  rw [h, shape_toFloat hy] at hshape
  exact (Shape.finite.inj hshape).symm

end Finite

section

variable {x y : Float} {p p' : Finite}

theorem unpack_of_shape (h : shape x = .finite p) : x.toModel.unpack = p.unpacked := by
  rw [unpack_toModel, h]
  rfl

theorem isInf_of_shape (h : shape x = .finite p) : x.isInf = false := by
  show x.toModel.unpack.isInf = false
  rw [unpack_of_shape h, Finite.unpacked]
  split <;> rfl

/-- A zero of either sign. -/
theorem eq_zero_of_shape (h : shape x = .finite p) (hp : p.mantissa = 0) :
    x = 0.0 ∨ x = -0.0 := by
  have hbounded := Finite.bounded_of_shape h
  obtain ⟨negative, mantissa, exponent⟩ := p
  obtain rfl : mantissa = 0 := hp
  obtain rfl : exponent = -1074 := hbounded.normal.resolve_left (by norm_num)
  cases negative with
  | false => exact Or.inl (eq_of_shape_eq (h.trans (by decide +kernel)))
  | true => exact Or.inr (eq_of_shape_eq (h.trans (by decide +kernel)))

/-- A product is rounded once. -/
theorem mul_eq (hx : shape x = .finite p) (hy : shape y = .finite p') (hp : p.mantissa ≠ 0)
    (hp' : p'.mantissa ≠ 0) :
    x * y = (Finite.nearest (p.negative != p'.negative) (p.magnitude * p'.magnitude)).toFloat := by
  have hcanonical := (Finite.bounded_of_shape hx).toCanonical
  have hcanonical' := (Finite.bounded_of_shape hy).toCanonical
  rw [Finite.toFloat, ← Finite.mul_unpacked hcanonical hcanonical' hp hp', ← unpack_of_shape hx,
    ← unpack_of_shape hy]
  rfl

/-- A quotient is rounded once. -/
theorem div_eq (hx : shape x = .finite p) (hy : shape y = .finite p') (hp : p.mantissa ≠ 0)
    (hp' : p'.mantissa ≠ 0) :
    x / y = (Finite.nearest (p.negative != p'.negative) (p.magnitude / p'.magnitude)).toFloat := by
  rw [Finite.toFloat, ← Finite.div_unpacked hp hp', ← unpack_of_shape hx, ← unpack_of_shape hy]
  rfl

/-- A sum of positive numbers is rounded once. -/
theorem add_eq (hx : shape x = .finite p) (hy : shape y = .finite p') (hp : p.mantissa ≠ 0)
    (hp' : p'.mantissa ≠ 0) (hpos : p.negative = false) (hpos' : p'.negative = false) :
    x + y = (Finite.nearest false (p.magnitude + p'.magnitude)).toFloat := by
  rw [Finite.toFloat, ← Finite.add_unpacked hpos hpos' hp hp', ← unpack_of_shape hx,
    ← unpack_of_shape hy]
  rfl

theorem toFloat_ofNat {n : ℕ} (hn : n ≠ 0) (hlt : n < 2 ^ 64) :
    (UInt64.ofNat n).toFloat = (Finite.nearest false n).toFloat := by
  have hnat : (UInt64.ofNat n).toNat = n := UInt64.toNat_ofNat_of_lt' hlt
  rw [Finite.toFloat, ← Finite.ofNat_unpacked hn]
  show Float.ofModel (.pack (UnpackedFloat.ofNat Format.binary64 (UInt64.ofNat n).toNat)) = _
  rw [hnat]

theorem neg_toFloat (h : p.Bounded) : -p.toFloat = (p.signed !p.negative).toFloat := by
  have hunpack := unpack_of_shape (Finite.shape_toFloat h)
  show Float.ofModel (.pack p.toFloat.toModel.unpack.neg) = _
  rw [hunpack, Finite.toFloat]
  congr 2
  unfold Finite.unpacked Finite.signed
  dsimp only
  split <;> cases p.negative <;> rfl

/-- A number is positive until the sign is put before it. -/
theorem toFloat_signed (h : p.Bounded) (hp : p.negative = false) (negative : Bool) :
    (if negative then -p.toFloat else p.toFloat) = (p.signed negative).toFloat := by
  cases negative with
  | true =>
    rw [if_pos rfl, neg_toFloat h, hp]
    rfl
  | false =>
    rw [if_neg Bool.false_ne_true, ← hp]
    rfl

end

namespace Finite

/-! ## Results in range -/

/-- A number next to a rational is not out of range, up to halfway from the largest number
to the next power of two. -/
theorem bounded_nearest (negative : Bool) {q : ℚ} (hq : 0 < q) (h : q < 2 ^ 1024 - 2 ^ 970) :
    (nearest negative q).Bounded := by
  refine ⟨canonical_nearest negative hq, ?_⟩
  have hplace : place q ≤ 971 := by
    have hlog : Int.log 2 q < 1024 := by
      refine (Int.lt_zpow_iff_log_lt (by norm_num) hq).1 ?_
      exact h.trans (sub_lt_self _ (by positivity))
    unfold place
    omega
  obtain ⟨n, -, -, heq⟩ | ⟨hnear, heq⟩ := nearest_cases negative hq
  · rw [heq]
    exact hplace
  · rw [heq]
    rcases hplace.lt_or_eq with hlt | hlast
    · exact hlt
    -- at the last place of all, the digits are too few to move up
    · exfalso
      have hlow := (abs_le.1 hnear.1).1
      have hunit : q / 2 ^ place q < 2 ^ 53 - 1 / 2 := by
        have hpow : (2 : ℚ) ^ (971 : ℤ) = 2 * 2 ^ 970 := zpow_one_add₀ two_ne_zero 970
        have htop : (2 : ℚ) ^ 1024 = 2 ^ 54 * 2 ^ 970 := pow_add 2 54 970
        have hpos : (0 : ℚ) < 2 ^ 970 := by positivity
        rw [htop] at h
        rw [hlast, hpow]
        generalize (2 : ℚ) ^ 970 = unit at h hpos
        rw [div_lt_iff₀ (by positivity)]
        linarith
      push_cast at hlow
      linarith

/-- A rational whose binary digits end before the last place is a number. -/
theorem magnitude_nearest (negative : Bool) {q : ℚ} {n : ℕ} (hn : q / 2 ^ place q = n) :
    (nearest negative q).magnitude = q := by
  have hlt : (n : ℚ) < 2 ^ 53 := hn ▸ div_place_lt q
  have hnear : IsNearest n (q / 2 ^ place q) := by
    rw [hn]
    exact ⟨by norm_num, by norm_num⟩
  have hq : (n : ℚ) * 2 ^ place q = q := by rw [← hn, div_mul_cancel₀ _ (by positivity)]
  have hnonneg : 0 ≤ q := hq ▸ by positivity
  rw [nearest_of_lt negative hnonneg rfl hnear (by exact_mod_cast hlt)]
  exact hq

/-- The natural numbers up to `2 ^ 53` are numbers. -/
theorem magnitude_nearest_natCast (negative : Bool) {n : ℕ} (hn : n ≠ 0) (h : n ≤ 2 ^ 53) :
    (nearest negative n).magnitude = n := by
  have hnq : (0 : ℚ) < n := by exact_mod_cast Nat.pos_of_ne_zero hn
  rcases h.lt_or_eq with hlt | rfl
  · have hplace : place n ≤ 0 := by
      have hlog := (Nat.log2_lt hn).2 hlt
      unfold place
      rw [Int.log_natCast, ← Nat.log2_eq_log_two]
      omega
    refine magnitude_nearest negative (n := n * 2 ^ (-place n).toNat) ?_
    have hexp : place n = -((-place n).toNat : ℤ) := by omega
    rw [hexp, zpow_neg, div_inv_eq_mul, zpow_natCast]
    push_cast
    congr
  · refine magnitude_nearest negative (n := 2 ^ 52) ?_
    have hplace : place ((2 ^ 53 : ℕ) : ℚ) = 1 := by
      refine place_eq ?_ ?_ (by norm_num) <;> norm_num
    rw [hplace]
    norm_num

end Finite

end TreeScript.Number
