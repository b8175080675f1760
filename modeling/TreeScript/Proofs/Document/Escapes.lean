import TreeScript.Proofs.Document.Json
import TreeScript.Proofs.Document.Strings

/-!
# Strings in any writing

However the characters of a string are written, `text` reads the same string
(`text_pieces`). A string that nobody needs is passed also where it denotes nothing
(`skipText_pieces`).
-/

namespace TreeScript.Document

/-- The bytes of some characters. -/
def encoded (cs : List Char) : List UInt8 :=
  cs.flatMap String.utf8EncodeChar

@[simp] theorem encoded_nil : encoded [] = [] :=
  rfl

theorem encoded_cons (c : Char) (cs : List Char) :
    encoded (c :: cs) = String.utf8EncodeChar c ++ encoded cs :=
  rfl

@[simp] theorem encoded_append (cs ds : List Char) :
    encoded (cs ++ ds) = encoded cs ++ encoded ds :=
  List.flatMap_append

theorem bytes_eq_encoded (s : String) : bytes s = encoded s.toList :=
  bytes_eq_flatMap s

/-! ## Code units -/

theorem exists_hexValue (d : HexDigit) :
    ∃ b, String.utf8EncodeChar d.char = [b] ∧ hexValue b = some d.value := by
  obtain ⟨value, capital⟩ := d
  have hall : ∀ (v : Fin 16) (capital : Bool), (HexDigit.mk v capital).char.toNat < 0x80 ∧
      hexValue (UInt8.ofNat (HexDigit.mk v capital).char.toNat) = some v.val := by
    decide
  exact ⟨_, utf8EncodeChar_of_lt (hall value capital).1, (hall value capital).2⟩

/-- A code unit is four bytes. -/
theorem exists_hexUnit (u : CodeUnit) : ∃ a b c d,
    encoded (u.digits.map HexDigit.char) = [a, b, c, d] ∧
      ∀ s, hexUnit (a :: b :: c :: d :: s) = .ok (u.value, s) := by
  obtain ⟨a, ha, hav⟩ := exists_hexValue u.a
  obtain ⟨b, hb, hbv⟩ := exists_hexValue u.b
  obtain ⟨c, hc, hcv⟩ := exists_hexValue u.c
  obtain ⟨d, hd, hdv⟩ := exists_hexValue u.d
  refine ⟨a, b, c, d, ?_, fun s => ?_⟩
  · simp [CodeUnit.digits, encoded_cons, ha, hb, hc, hd]
  · rw [hexUnit]
    simp only [hav, hbv, hcv, hdv]
    rfl

/-- No character is a surrogate. -/
theorem lt_or_lt_toNat (c : Char) : c.toNat < 0xd800 ∨ 0xdfff < c.toNat :=
  c.valid.imp_right And.left

theorem unitEscape_unit {c : Char} {s s' : List UInt8}
    (h : hexUnit s' = .ok (c.toNat, s)) : unitEscape s' = .ok (c, s) := by
  have hchar := lt_or_lt_toNat c
  have hlow : isLowSurrogate c.toNat = false := by
    simp [isLowSurrogate]
    omega
  have hhigh : isHighSurrogate c.toNat = false := by
    simp [isHighSurrogate]
    omega
  unfold unitEscape
  rw [h]
  simp [bind, Except.bind, hlow, hhigh, pure, Except.pure, Char.ofNat_toNat]

theorem unitEscape_pair {c : Char} {high low : Nat} {s s₁ s₂ : List UInt8}
    (h₁ : hexUnit s₁ = .ok (high, Mark.backslash :: Mark.lowerU :: s₂))
    (h₂ : hexUnit s₂ = .ok (low, s)) (hc : 0x10000 ≤ c.toNat)
    (hhigh : high = 0xd800 + (c.toNat - 0x10000) / 0x400)
    (hlow : low = 0xdc00 + (c.toNat - 0x10000) % 0x400) : unitEscape s₁ = .ok (c, s) := by
  have hlt : c.toNat < 0x110000 := by
    rcases c.valid with h | h
    · exact Nat.lt_trans h (by decide)
    · exact h.2
  have hfirst : isLowSurrogate high = false ∧ isHighSurrogate high = true := by
    simp [isLowSurrogate, isHighSurrogate]
    omega
  have hsecond : isLowSurrogate low = true := by
    simp [isLowSurrogate]
    omega
  have hpair : surrogatePair high low = c := by
    have hnat : 0x10000 + (high - 0xd800) * 0x400 + (low - 0xdc00) = c.toNat := by omega
    rw [surrogatePair, hnat, Char.ofNat_toNat]
  have hread : lowSurrogate high (Mark.backslash :: Mark.lowerU :: s₂) = .ok (c, s) := by
    show (hexUnit s₂ >>= fun p => if isLowSurrogate p.1 then
      pure (surrogatePair high p.1, p.2) else throw .loneSurrogate) = _
    rw [h₂]
    show (if isLowSurrogate low then pure (surrogatePair high low, s) else throw _ : Except _ _) = _
    rw [if_pos hsecond, hpair]
    rfl
  unfold unitEscape
  rw [h₁]
  show (if isLowSurrogate high then throw _ else if isHighSurrogate high then _ else _ :
    Except _ _) = _
  rw [hfirst.1, hfirst.2, if_neg Bool.false_ne_true, if_pos rfl, hread]

/-! ## Strings -/

/-- The escape of a code unit. -/
theorem exists_encoded_unit (u : CodeUnit) : ∃ a b c d,
    encoded (Piece.unit u).chars = Mark.backslash :: Mark.lowerU :: [a, b, c, d] ∧
      ∀ s, hexUnit (a :: b :: c :: d :: s) = .ok (u.value, s) := by
  have hstart : encoded ['\\', 'u'] = [Mark.backslash, Mark.lowerU] := by decide
  obtain ⟨a, b, c, d, hbytes, hread⟩ := exists_hexUnit u
  refine ⟨a, b, c, d, ?_, hread⟩
  show encoded (['\\', 'u'] ++ u.digits.map HexDigit.char) = _
  rw [encoded_append, hstart, hbytes]
  rfl

theorem exists_encoded_letter (l : Letter) :
    ∃ b, encoded (Piece.letter l).chars = [Mark.backslash, b] ∧ b ≠ Mark.lowerU ∧
      letterEscape b = some l.denoted := by
  cases l <;> exact ⟨_, rfl, by decide, rfl⟩

/-- A character that the reader takes from its bytes. -/
def Takes (c : Char) (w : List UInt8) : Prop :=
  ∃ steps ≤ w.length, ∀ bound read s, stringBytes (steps + bound) read (w ++ s) =
    stringBytes bound ((String.utf8EncodeChar c).reverse ++ read) s

theorem takes_plain {c : Char} (h : 0x20 ≤ c.toNat ∧ c ≠ '"' ∧ c ≠ '\\') :
    Takes c (String.utf8EncodeChar c) :=
  ⟨_, Nat.le_refl _, fun bound read s => stringBytes_append_of_plain s bound _ read
    fun _ => plain_of_mem_utf8EncodeChar h.1 h.2.1 h.2.2⟩

theorem takes_escape {c : Char} {w : List UInt8} (h : ∀ s, escape (w ++ s) = .ok (c, s)) :
    Takes c (Mark.backslash :: w) := by
  refine ⟨1, by simp, fun bound read s => ?_⟩
  rw [Nat.add_comm]
  exact stringBytes_escape (h s) bound read

theorem stringBytes_pieces (s : List UInt8) {ps : List Piece} {cs : List Char}
    (h : Denotes ps cs) : ∀ (bound : Nat) (read : List UInt8),
      (encoded (ps.flatMap Piece.chars)).length < bound →
        stringBytes bound read (encoded (ps.flatMap Piece.chars) ++ Mark.quote :: s) =
          .ok (read.reverse ++ encoded cs, s) := by
  -- a character at the front, and the rest of the string
  have hcons {c : Char} {w w' : List UInt8} {cs : List Char} (hw : Takes c w)
      (ih : ∀ bound read, w'.length < bound → stringBytes bound read (w' ++ Mark.quote :: s) =
        .ok (read.reverse ++ encoded cs, s)) (bound : Nat) (read : List UInt8)
      (hbound : (w ++ w').length < bound) : stringBytes bound read (w ++ w' ++ Mark.quote :: s) =
        .ok (read.reverse ++ encoded (c :: cs), s) := by
    obtain ⟨steps, hsteps, htake⟩ := hw
    rw [List.length_append] at hbound
    obtain ⟨left, rfl⟩ : ∃ left, bound = steps + left := ⟨bound - steps, by omega⟩
    rw [List.append_assoc, htake, ih left _ (by omega), encoded_cons]
    simp
  induction h with
  | nil =>
    intro bound read hbound
    obtain ⟨bound, rfl⟩ := Nat.exists_eq_add_one_of_ne_zero (Nat.ne_zero_of_lt hbound)
    rw [encoded_nil, List.append_nil]
    rfl
  | plain c hc _ ih =>
    rw [List.flatMap_cons, encoded_append]
    have hbytes : encoded (Piece.plain c hc).chars = String.utf8EncodeChar c :=
      List.append_nil _
    rw [hbytes]
    exact hcons (takes_plain hc) ih
  | letter l _ ih =>
    obtain ⟨b, hb, hu, hdenoted⟩ := exists_encoded_letter l
    rw [List.flatMap_cons, encoded_append, hb]
    refine hcons (takes_escape (w := [b]) fun s => ?_) ih
    show escape (b :: s) = _
    rw [escape, hdenoted]
    exact hu
  | @unit ps cs c u hu _ ih =>
    obtain ⟨a, b, c', d, hw, hread⟩ := exists_encoded_unit u
    rw [List.flatMap_cons, encoded_append, hw]
    exact hcons (takes_escape (w := [Mark.lowerU, a, b, c', d]) fun s =>
      unitEscape_unit (hu ▸ hread s)) ih
  | @pair ps cs c high low hc hhigh hlow _ ih =>
    obtain ⟨a, b, c', d, hw, hread⟩ := exists_encoded_unit high
    obtain ⟨a', b', c'', d', hw', hread'⟩ := exists_encoded_unit low
    rw [List.flatMap_cons, List.flatMap_cons, encoded_append, encoded_append, hw, hw',
      ← List.append_assoc]
    exact hcons (takes_escape (w := [Mark.lowerU, a, b, c', d, Mark.backslash, Mark.lowerU,
      a', b', c'', d']) fun s => unitEscape_pair (hread _) (hread' s) hc hhigh hlow) ih

/-- A string is read as what its pieces denote. -/
theorem text_pieces {ps : List Piece} {string : String} (h : Denotes ps string.toList)
    {bound : Nat} {s : List UInt8}
    (hbound : (encoded (ps.flatMap Piece.chars) ++ Mark.quote :: s).length < bound) :
    text bound (encoded (ps.flatMap Piece.chars) ++ Mark.quote :: s) = .ok (string, s) := by
  rw [List.length_append] at hbound
  unfold text
  rw [stringBytes_pieces s h bound [] (by omega)]
  simp only [List.reverse_nil, List.nil_append, ← bytes_eq_encoded]
  simp only [bind, Except.bind, fromUTF8?_bytes]
  rfl

/-! ## Strings that nobody needs -/

theorem skipText_cons_of_plain {b : UInt8} (h : Plain b) (s : List UInt8) :
    skipText (b :: s) = skipText s := by
  rw [skipText, if_neg h.1]
  · exact h.2.1
  · exact fun hb _ => h.2.2 hb
  · exact fun _ _ _ _ _ hb _ => h.2.2 hb
  · exact fun _ hb _ => h.2.2 hb
  · exact fun _ _ hb _ => h.2.2 hb

theorem skipText_append_of_plain (s : List UInt8) : ∀ bs : List UInt8, (∀ b ∈ bs, Plain b) →
    skipText (bs ++ s) = skipText s
  | [], _ => rfl
  | b :: bs, h => by
    rw [List.cons_append, skipText_cons_of_plain (h b (List.mem_cons_self ..)),
      skipText_append_of_plain s bs fun b' hb' => h b' (List.mem_cons_of_mem _ hb')]

/-- A string is passed whatever its pieces are. -/
theorem skipText_pieces (s : List UInt8) : ∀ ps : List Piece,
    skipText (encoded (ps.flatMap Piece.chars) ++ Mark.quote :: s) = .ok s
  | [] => rfl
  | .plain c hc :: ps => by
    have hbytes : encoded (Piece.plain c hc).chars = String.utf8EncodeChar c :=
      List.append_nil _
    rw [List.flatMap_cons, encoded_append, List.append_assoc, hbytes,
      skipText_append_of_plain _ _ fun b => plain_of_mem_utf8EncodeChar hc.1 hc.2.1 hc.2.2]
    exact skipText_pieces s ps
  | .letter l :: ps => by
    rw [List.flatMap_cons, encoded_append, List.append_assoc]
    cases l <;> exact skipText_pieces s ps
  | .unit u :: ps => by
    obtain ⟨a, b, c, d, hw, hread⟩ := exists_encoded_unit u
    have hunit : hexUnit [a, b, c, d] = .ok (u.value, []) := hread []
    rw [List.flatMap_cons, encoded_append, List.append_assoc, hw]
    show (if (hexUnit [a, b, c, d]).isOk then skipText _ else _) = _
    rw [hunit]
    exact skipText_pieces s ps

end TreeScript.Document
