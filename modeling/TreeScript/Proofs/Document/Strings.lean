import TreeScript.Document.Quoted
import TreeScript.Proofs.Document.Bytes

/-!
# Strings come back

What `quoted` writes, `text` reads back, for every string and whatever follows it
(`text_quoted`). A character is written as an escape, of which one step of the reader
makes the character again, or as its own bytes, which the reader takes as they are.
-/

namespace TreeScript.Document

/-- A byte that stands for itself in a string. -/
def Plain (b : UInt8) : Prop :=
  ¬b < 0x20 ∧ b ≠ Mark.quote ∧ b ≠ Mark.backslash

theorem stringBytes_cons_of_plain {b : UInt8} (h : Plain b) (bound : Nat) (read s : List UInt8) :
    stringBytes (bound + 1) read (b :: s) = stringBytes bound (b :: read) s := by
  rw [stringBytes, if_neg h.1]
  · exact h.2.1
  · exact h.2.2

theorem stringBytes_append_of_plain (s : List UInt8) (bound : Nat) :
    ∀ (bs read : List UInt8), (∀ b ∈ bs, Plain b) →
      stringBytes (bs.length + bound) read (bs ++ s) =
        stringBytes bound (bs.reverse ++ read) s
  | [], _, _ => by simp
  | b :: bs, read, h => by
    have hcount : (b :: bs).length + bound = bs.length + bound + 1 := by
      rw [List.length_cons]
      omega
    rw [hcount, List.cons_append, stringBytes_cons_of_plain (h b (List.mem_cons_self ..)),
      stringBytes_append_of_plain s bound bs (b :: read) fun b' hb' =>
        h b' (List.mem_cons_of_mem _ hb')]
    simp

/-- An escape is one step. -/
theorem stringBytes_escape {c : Char} {s s' : List UInt8} (h : escape s' = .ok (c, s))
    (bound : Nat) (read : List UInt8) :
    stringBytes (bound + 1) read (Mark.backslash :: s') =
      stringBytes bound ((String.utf8EncodeChar c).reverse ++ read) s := by
  show (escape s' >>= fun p =>
    stringBytes bound ((String.utf8EncodeChar p.1).reverse ++ read) p.2) = _
  rw [h]
  rfl

/-! ## Escapes -/

theorem hexValue_digitChar : ∀ n < 16,
    (Nat.digitChar n).toNat < 0x80 ∧ hexValue (UInt8.ofNat (Nat.digitChar n).toNat) = some n := by
  decide

theorem exists_hexDigit (n : Nat) :
    ∃ b, String.utf8EncodeChar (hexDigit n) = [b] ∧ hexValue b = some (n % 16) := by
  obtain ⟨hlt, hvalue⟩ := hexValue_digitChar (n % 16) (Nat.mod_lt n (by omega))
  exact ⟨_, utf8EncodeChar_of_lt hlt, hvalue⟩

/-- A control is read from the last two of its four digits. -/
theorem escape_control {c : Char} (h : c.toNat < 0x20) {a b : UInt8}
    (ha : hexValue a = some (c.toNat / 16 % 16)) (hb : hexValue b = some (c.toNat % 16))
    (s : List UInt8) :
    escape (Mark.lowerU :: Mark.zero :: Mark.zero :: a :: b :: s) = .ok (c, s) := by
  have hunit : hexUnit (Mark.zero :: Mark.zero :: a :: b :: s) = .ok (c.toNat, s) := by
    have hzero : hexValue Mark.zero = some 0 := by decide
    rw [hexUnit]
    simp only [hzero, ha, hb]
    congr 2
    omega
  have hlow : isLowSurrogate c.toNat = false := by
    simp [isLowSurrogate]
    omega
  have hhigh : isHighSurrogate c.toNat = false := by
    simp [isHighSurrogate]
    omega
  show unitEscape _ = _
  unfold unitEscape
  rw [hunit]
  simp [bind, Except.bind, hlow, hhigh, pure, Except.pure, Char.ofNat_toNat]

/-- Other characters are written as they are. -/
theorem plain_of_mem_utf8EncodeChar {c : Char} (hcontrol : 0x20 ≤ c.toNat) (hquote : c ≠ '"')
    (hbackslash : c ≠ '\\') {b : UInt8} (hb : b ∈ String.utf8EncodeChar c) : Plain b := by
  by_cases h : c.toNat < 0x80
  · rw [utf8EncodeChar_of_lt h, List.mem_singleton] at hb
    subst hb
    refine ⟨?_, fun hb => hquote ?_, fun hb => hbackslash ?_⟩
    · rw [UInt8.lt_iff_toNat_lt, UInt8.toNat_ofNat', Nat.mod_eq_of_lt (by omega)]
      exact Nat.not_lt_of_le hcontrol
    · exact eq_of_ofNat_eq h (d := '"') (by decide) hb
    · exact eq_of_ofNat_eq h (d := '\\') (by decide) hb
  · have hge := le_of_mem_utf8EncodeChar (Nat.le_of_not_lt h) hb
    refine ⟨fun hlt => ?_, ?_, ?_⟩
    · exact absurd (UInt8.lt_of_le_of_lt hge hlt) (by decide)
    · rintro rfl
      exact absurd hge (by decide)
    · rintro rfl
      exact absurd hge (by decide)

/-- A character is written as an escape that stands for it, or as plain bytes. -/
theorem escapeChar_cases (c : Char) :
    (∃ s', (escapeChar c).flatMap String.utf8EncodeChar = Mark.backslash :: s' ∧
      ∀ s, escape (s' ++ s) = .ok (c, s)) ∨
    (escapeChar c = [c] ∧ ∀ b ∈ String.utf8EncodeChar c, Plain b) := by
  unfold escapeChar
  split
  · exact Or.inl ⟨[Mark.quote], by decide, fun _ => rfl⟩
  · exact Or.inl ⟨[Mark.backslash], by decide, fun _ => rfl⟩
  · exact Or.inl ⟨[Mark.lowerB], by decide, fun _ => rfl⟩
  · exact Or.inl ⟨[Mark.lowerT], by decide, fun _ => rfl⟩
  · exact Or.inl ⟨[Mark.lowerN], by decide, fun _ => rfl⟩
  · exact Or.inl ⟨[Mark.lowerF], by decide, fun _ => rfl⟩
  · exact Or.inl ⟨[Mark.lowerR], by decide, fun _ => rfl⟩
  rename_i hquote hbackslash _ _ _ _ _
  split
  · rename_i hcontrol
    obtain ⟨a, hbytes, ha⟩ := exists_hexDigit (c.toNat / 16)
    obtain ⟨b, hbytes', hb⟩ := exists_hexDigit c.toNat
    refine Or.inl ⟨[Mark.lowerU, Mark.zero, Mark.zero, a, b], ?_, escape_control hcontrol ha hb⟩
    have hstart : (['\\', 'u', '0', '0'] : List Char).flatMap String.utf8EncodeChar =
        [Mark.backslash, Mark.lowerU, Mark.zero, Mark.zero] := by decide
    show (['\\', 'u', '0', '0'] ++ [_, _]).flatMap String.utf8EncodeChar = _
    rw [List.flatMap_append, hstart]
    simp [hbytes, hbytes']
  · rename_i hcontrol
    exact Or.inr ⟨rfl, fun b => plain_of_mem_utf8EncodeChar (Nat.le_of_not_lt hcontrol) hquote
      hbackslash⟩

/-- The reader takes a character back from what is written for it. -/
theorem exists_stringBytes_escapeChar (c : Char) :
    ∃ steps ≤ ((escapeChar c).flatMap String.utf8EncodeChar).length, ∀ bound read s,
      stringBytes (steps + bound) read ((escapeChar c).flatMap String.utf8EncodeChar ++ s) =
        stringBytes bound ((String.utf8EncodeChar c).reverse ++ read) s := by
  rcases escapeChar_cases c with ⟨s', hbytes, hescape⟩ | ⟨hself, hplain⟩
  · rw [hbytes]
    refine ⟨1, by simp, fun bound read s => ?_⟩
    rw [Nat.add_comm]
    exact stringBytes_escape (hescape s) bound read
  · rw [hself, List.flatMap_singleton]
    exact ⟨_, Nat.le_refl _, fun bound read s =>
      stringBytes_append_of_plain s bound _ read hplain⟩

theorem stringBytes_flatMap_escapeChar (s : List UInt8) : ∀ (cs : List Char) (bound : Nat)
    (read : List UInt8), ((cs.flatMap escapeChar).flatMap String.utf8EncodeChar).length < bound →
      stringBytes bound read
          ((cs.flatMap escapeChar).flatMap String.utf8EncodeChar ++ Mark.quote :: s) =
        .ok (read.reverse ++ cs.flatMap String.utf8EncodeChar, s)
  | [], 0, _, h => absurd h (by simp)
  | [], bound + 1, read, _ => by
    rw [List.flatMap_nil, List.flatMap_nil, List.append_nil]
    rfl
  | c :: cs, bound, read, h => by
    obtain ⟨steps, hle, hstep⟩ := exists_stringBytes_escapeChar c
    simp only [List.flatMap_cons, List.flatMap_append, List.length_append] at h
    obtain ⟨left, rfl⟩ : ∃ left, bound = steps + left := ⟨bound - steps, by omega⟩
    simp only [List.flatMap_cons, List.flatMap_append, List.append_assoc]
    rw [hstep, stringBytes_flatMap_escapeChar s cs left _ (by omega)]
    simp

theorem bytes_quoted (s : String) :
    bytes (quoted s) = Mark.quote ::
      ((s.toList.flatMap escapeChar).flatMap String.utf8EncodeChar ++ [Mark.quote]) := by
  have hquote : String.utf8EncodeChar '"' = [Mark.quote] := by decide
  rw [quoted, bytes_ofList]
  simp [hquote]

/-- A string is read back from between its quotes, whatever follows. -/
theorem text_quoted (string : String) {bound : Nat} {s : List UInt8}
    (h : (bytes (quoted string) ++ s).length < bound) : ∃ s',
      bytes (quoted string) ++ s = Mark.quote :: s' ∧ text bound s' = .ok (string, s) := by
  rw [bytes_quoted] at h ⊢
  refine ⟨_, rfl, ?_⟩
  simp only [List.cons_append, List.append_assoc, List.nil_append, List.length_cons,
    List.length_append] at h
  unfold text
  rw [List.append_eq, List.append_assoc, List.singleton_append,
    stringBytes_flatMap_escapeChar s _ _ _ (by omega)]
  simp only [List.reverse_nil, List.nil_append, ← bytes_eq_flatMap]
  simp only [bind, Except.bind, fromUTF8?_bytes]
  rfl

end TreeScript.Document
