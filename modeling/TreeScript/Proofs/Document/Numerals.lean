import TreeScript.Document.Items
import TreeScript.Proofs.Document.Bytes
import TreeScript.Proofs.Number.Digits

/-!
# Numerals come back

A `Spelling` is the text of a numeral in its parts. A reader takes a spelling with the
digits in good order apart again, up to the first byte that cannot go on with it
(`numeral_spelling`).

A document holds every finite number as such a spelling (`Number.Finite.documentText`),
and holds `null` for the others. `real_text` says what reading a number gives.
-/

namespace TreeScript.Document

/-- The parts of a numeral's text. -/
structure Spelling where
  negative : Bool
  whole : List Char
  /-- The digits behind the point, if there is one. -/
  fraction : Option (List Char)
  /-- The sign and the digits of the power of ten, if there is one. -/
  exponent : Option (Bool × List Char)

namespace Spelling

def fractionChars (p : Spelling) : List Char :=
  match p.fraction with
  | none => []
  | some digits => '.' :: digits

def exponentChars (p : Spelling) : List Char :=
  match p.exponent with
  | none => []
  | some (true, digits) => 'e' :: '-' :: digits
  | some (false, digits) => 'e' :: '+' :: digits

/-- The text, from the sign to the power of ten. -/
def chars (p : Spelling) : List Char :=
  (if p.negative then ['-'] else []) ++ (p.whole ++ (p.fractionChars ++ p.exponentChars))

def digitOf (c : Char) : Nat :=
  c.toNat - 0x30

/-- What a spelling spells. -/
def numeral (p : Spelling) : Numeral :=
  ⟨p.negative, p.whole.map digitOf, p.fraction.map (·.map digitOf), p.exponent.map fun e =>
    if e.1 then -(ofDigits (e.2.map digitOf) : Int) else ofDigits (e.2.map digitOf)⟩

/-- One digit or more. -/
def Digits (digits : List Char) : Prop :=
  digits ≠ [] ∧ ∀ c ∈ digits, c.isDigit

/-- All parts have digits, and only zero itself starts with a zero. -/
structure WellFormed (p : Spelling) : Prop where
  whole : Digits p.whole
  leading : ∀ more, p.whole = '0' :: more → more = []
  fraction : ∀ digits ∈ p.fraction, Digits digits
  exponent : ∀ e ∈ p.exponent, Digits e.2

end Spelling

open Spelling

/-! ## Reading -/

/-- A numeral ends before these bytes. -/
def Ends (s : List UInt8) : Prop :=
  ∀ b ∈ s.head?, isDigit b = false ∧ b ≠ Mark.point ∧ b ≠ Mark.lowerE ∧ b ≠ Mark.upperE

/-- A digit is one byte, with the same value. -/
theorem utf8EncodeChar_of_isDigit {c : Char} (h : c.isDigit) : ∃ b,
    String.utf8EncodeChar c = [b] ∧ isDigit b = true ∧ digitValue b = digitOf c := by
  have hrange : 48 ≤ c.toNat ∧ c.toNat ≤ 57 := by
    simpa [Char.isDigit, UInt32.le_iff_toNat_le] using h
  have hnat : (UInt8.ofNat c.toNat).toNat = c.toNat := by
    rw [UInt8.toNat_ofNat', Nat.mod_eq_of_lt (by omega)]
  refine ⟨_, utf8EncodeChar_of_lt (by omega), ?_, ?_⟩
  · simp [isDigit, UInt8.le_iff_toNat_le, hnat, hrange]
  · simp [digitValue, digitOf, hnat]

theorem digits_append {s : List UInt8} (hs : ∀ b ∈ s.head?, isDigit b = false) :
    ∀ {ds : List Char}, (∀ c ∈ ds, c.isDigit) →
      digits (ds.flatMap String.utf8EncodeChar ++ s) = (ds.map digitOf, s)
  | [], _ => by
    cases s with
    | nil => rfl
    | cons b s => simp [digits, hs b rfl]
  | c :: ds, h => by
    obtain ⟨b, hb, hdigit, hvalue⟩ := utf8EncodeChar_of_isDigit (h c (List.mem_cons_self ..))
    have ih := digits_append hs fun c hc => h c (List.mem_cons_of_mem _ hc)
    simp only [digits, Prod.mk.injEq] at ih
    simp [digits, hb, hdigit, hvalue, ih.1, ih.2]

theorem eq_zero_of_digitOf_eq_zero {c : Char} (h : c.isDigit) (hzero : digitOf c = 0) :
    c = '0' := by
  have hrange : 48 ≤ c.toNat ∧ c.toNat ≤ 57 := by
    simpa [Char.isDigit, UInt32.le_iff_toNat_le] using h
  have hnat : c.toNat = ('0' : Char).toNat := by
    unfold digitOf at hzero
    show c.toNat = 48
    omega
  exact Char.toNat_inj.1 hnat

theorem wholeDigits_append {ds : List Char} {s : List UInt8} (h : Digits ds)
    (hleading : ∀ more, ds = '0' :: more → more = [])
    (hs : ∀ b ∈ s.head?, isDigit b = false) :
    wholeDigits (ds.flatMap String.utf8EncodeChar ++ s) = .ok (ds.map digitOf, s) := by
  unfold wholeDigits
  rw [digits_append hs h.2]
  obtain ⟨c, cs, rfl⟩ := List.exists_cons_of_ne_nil h.1
  split
  · rename_i heq
    cases heq
  · rename_i heq
    rw [List.map_cons, Prod.mk.injEq, List.cons.injEq] at heq
    obtain rfl := eq_zero_of_digitOf_eq_zero (h.2 c (List.mem_cons_self ..)) heq.1.1
    rw [hleading cs rfl] at heq
    cases heq.1.2
  · rename_i heq
    cases heq
    rfl

/-- Digits where at least one has to be. -/
theorem digits_cases {ds : List Char} {s : List UInt8} (h : Digits ds)
    (hs : ∀ b ∈ s.head?, isDigit b = false) : ∃ n ns, ds.map digitOf = n :: ns ∧
      digits (ds.flatMap String.utf8EncodeChar ++ s) = (n :: ns, s) := by
  rw [digits_append hs h.2]
  obtain ⟨c, cs, rfl⟩ := List.exists_cons_of_ne_nil h.1
  exact ⟨_, _, rfl, rfl⟩

theorem fractionDigits_of_ne_point {s : List UInt8} (h : ∀ b ∈ s.head?, b ≠ Mark.point) :
    fractionDigits s = .ok (none, s) := by
  unfold fractionDigits
  split
  · exact absurd rfl (h _ rfl)
  · rfl

theorem fractionDigits_of_digits {s rest : List UInt8} {n : Nat} {ns : List Nat}
    (h : digits s = (n :: ns, rest)) :
    fractionDigits (Mark.point :: s) = .ok (some (n :: ns), rest) := by
  refine (fractionDigits.eq_1 s).trans ?_
  rw [h]

theorem exponentPart_of_ends {s : List UInt8} (h : Ends s) : exponentPart s = .ok (none, s) := by
  unfold exponentPart
  split
  · exact absurd rfl (h _ rfl).2.2.1
  · exact absurd rfl (h _ rfl).2.2.2
  · rfl

theorem exponentDigits_of_sign (sign : UInt8) {negative : Bool} {ds : List Char} {s : List UInt8}
    (hsign : ∀ s, exponentSign (sign :: s) = (negative, s)) (h : Digits ds) (hs : Ends s) :
    exponentDigits (sign :: (ds.flatMap String.utf8EncodeChar ++ s)) = .ok (some (if negative then
      -(ofDigits (ds.map digitOf) : Int) else ofDigits (ds.map digitOf)), s) := by
  obtain ⟨n, ns, hmap, hdigits⟩ := digits_cases h fun b hb => (hs b hb).1
  unfold exponentDigits
  rw [hsign]
  dsimp only
  rw [hdigits, hmap]

theorem exponentPart_append {p : Spelling} (h : p.WellFormed) {s : List UInt8} (hs : Ends s) :
    exponentPart (p.exponentChars.flatMap String.utf8EncodeChar ++ s) =
      .ok (p.numeral.exponent, s) := by
  obtain ⟨negative, whole, fraction, exponent⟩ := p
  cases exponent with
  | none => exact exponentPart_of_ends hs
  | some e =>
    obtain ⟨down, ds⟩ := e
    have hds : Digits ds := h.exponent _ rfl
    cases down with
    | true => exact exponentDigits_of_sign Mark.minus (fun _ => rfl) hds hs
    | false => exact exponentDigits_of_sign Mark.plus (fun _ => rfl) hds hs

/-- What follows the digits behind the point is neither a digit nor a point. -/
theorem head?_exponentChars (p : Spelling) {s : List UInt8} (hs : Ends s) :
    ∀ b ∈ (p.exponentChars.flatMap String.utf8EncodeChar ++ s).head?,
      isDigit b = false ∧ b ≠ Mark.point := by
  obtain ⟨negative, whole, fraction, exponent⟩ := p
  intro b hb
  cases exponent with
  | none => exact ⟨(hs b hb).1, (hs b hb).2.1⟩
  | some e =>
    obtain ⟨down, ds⟩ := e
    have hhead : b = Mark.lowerE := by
      cases down <;> exact (Option.some.inj hb).symm
    rw [hhead]
    decide

theorem fractionDigits_append {p : Spelling} (h : p.WellFormed) {s : List UInt8}
    (hs : ∀ b ∈ s.head?, isDigit b = false ∧ b ≠ Mark.point) :
    fractionDigits (p.fractionChars.flatMap String.utf8EncodeChar ++ s) =
      .ok (p.numeral.fraction, s) := by
  cases hfraction : p.fraction with
  | none =>
    simp only [fractionChars, hfraction, Spelling.numeral, Option.map_none, List.flatMap_nil,
      List.nil_append]
    exact fractionDigits_of_ne_point fun b hb => (hs b hb).2
  | some ds =>
    obtain ⟨n, ns, hmap, hdigits⟩ :=
      digits_cases (h.fraction ds hfraction) fun b hb => (hs b hb).1
    simp only [fractionChars, hfraction, Spelling.numeral, Option.map_some]
    have hpoint : String.utf8EncodeChar '.' = [Mark.point] := by decide
    rw [List.flatMap_cons, List.append_assoc, hpoint, List.singleton_append, hmap]
    exact fractionDigits_of_digits hdigits

/-- What follows the digits before the point is no digit. -/
theorem head?_fractionChars (p : Spelling) {s : List UInt8}
    (hs : ∀ b ∈ s.head?, isDigit b = false ∧ b ≠ Mark.point) :
    ∀ b ∈ (p.fractionChars.flatMap String.utf8EncodeChar ++ s).head?, isDigit b = false := by
  intro b hb
  cases hfraction : p.fraction with
  | none =>
    simp only [fractionChars, hfraction, List.flatMap_nil, List.nil_append] at hb
    exact (hs b hb).1
  | some ds =>
    simp only [fractionChars, hfraction] at hb
    have hhead : b = Mark.point := (Option.some.inj hb).symm
    rw [hhead]
    decide

/-- A sign or a digit comes first. -/
theorem exists_chars {p : Spelling} (h : p.WellFormed) (cs : List Char) : ∃ b s,
    ((if p.negative then ['-'] else []) ++ (p.whole ++ cs)).flatMap String.utf8EncodeChar = b :: s ∧
      (b = Mark.minus || isDigit b) = true := by
  obtain ⟨c, more, hwhole⟩ := List.exists_cons_of_ne_nil h.whole.1
  obtain ⟨b, hb, hdigit, -⟩ := utf8EncodeChar_of_isDigit (h.whole.2 c (by rw [hwhole]; simp))
  have hminus : String.utf8EncodeChar '-' = [Mark.minus] := by decide
  cases p.negative with
  | true =>
    rw [if_pos rfl, List.singleton_append, List.flatMap_cons, hminus]
    exact ⟨_, _, rfl, rfl⟩
  | false =>
    rw [hwhole, if_neg Bool.false_ne_true, List.nil_append, List.cons_append, List.flatMap_cons, hb]
    exact ⟨_, _, rfl, by simp [hdigit]⟩

/-- A numeral is read up to what its power of ten is read from. -/
theorem numeral_append {p : Spelling} (h : p.WellFormed) {cs : List Char} {s : List UInt8}
    {e : Option Int}
    (hs : ∀ b ∈ (cs.flatMap String.utf8EncodeChar ++ s).head?, isDigit b = false ∧ b ≠ Mark.point)
    (he : exponentPart (cs.flatMap String.utf8EncodeChar ++ s) = .ok (e, s)) :
    numeral (((if p.negative then ['-'] else []) ++ (p.whole ++ (p.fractionChars ++ cs))).flatMap
      String.utf8EncodeChar ++ s) = .ok ({ p.numeral with exponent := e }, s) := by
  have hunsigned : unsignedNumeral p.negative ((p.whole ++ (p.fractionChars ++ cs)).flatMap
      String.utf8EncodeChar ++ s) = .ok ({ p.numeral with exponent := e }, s) := by
    unfold unsignedNumeral
    rw [List.flatMap_append, List.flatMap_append, List.append_assoc, List.append_assoc,
      wholeDigits_append h.whole h.leading (head?_fractionChars p hs)]
    show (fractionDigits _ >>= _) = _
    rw [fractionDigits_append h hs]
    show (exponentPart _ >>= _) = _
    rw [he]
    rfl
  cases hnegative : p.negative with
  | true =>
    rw [hnegative] at hunsigned
    exact hunsigned
  | false =>
    rw [hnegative] at hunsigned
    obtain ⟨c, more, hwhole⟩ := List.exists_cons_of_ne_nil h.whole.1
    obtain ⟨b, hb, hdigit, -⟩ := utf8EncodeChar_of_isDigit (h.whole.2 c (by rw [hwhole]; simp))
    rw [hwhole] at hunsigned ⊢
    simp only [List.cons_append, List.flatMap_cons, hb, List.nil_append, Bool.false_eq_true,
      ↓reduceIte] at hunsigned ⊢
    unfold TreeScript.Document.numeral
    split
    · rename_i heq
      cases heq
      cases hdigit
    · exact hunsigned

/-- A well-formed spelling reads as what it spells. -/
theorem numeral_spelling {p : Spelling} (h : p.WellFormed) {s : List UInt8} (hs : Ends s) :
    numeral (p.chars.flatMap String.utf8EncodeChar ++ s) = .ok (p.numeral, s) :=
  numeral_append h (head?_exponentChars p hs) (exponentPart_append h hs)

/-! ## Numbers in documents -/

open Number

/-- How a document spells a decimal. -/
def decimalSpelling (negative : Bool) (d : Decimal) : Spelling :=
  if Style.document.positional d.leading then
    if 0 ≤ d.exponent then
      ⟨negative, d.digits ++ List.replicate d.exponent.toNat '0', some ['0'], none⟩
    else
      let places := (-d.exponent).toNat
      if places < d.digits.length then
        ⟨negative, d.digits.take (d.digits.length - places),
          some (d.digits.drop (d.digits.length - places)), none⟩
      else ⟨negative, ['0'], some (List.replicate (places - d.digits.length) '0' ++ d.digits), none⟩
  else
    let power := (decide (d.leading < 0), Nat.toDigits 10 d.leading.natAbs)
    match d.digits with
    | first :: second :: more => ⟨negative, [first], some (second :: more), some power⟩
    | digits => ⟨negative, digits, none, some power⟩

/-- How a document spells a finite number. -/
def finiteSpelling (x : Finite) : Spelling :=
  decimalSpelling x.negative (x.shortest .even)

theorem toList_sign (negative : Bool) :
    (if negative then "-" else "" : String).toList = if negative then ['-'] else [] := by
  cases negative <;> rfl

theorem toList_positionalText {negative : Bool} {d : Decimal}
    (h : Style.document.positional d.leading = true) :
    (if negative then ['-'] else []) ++ (d.positionalText Style.document.wholeMark).toList =
      (decimalSpelling negative d).chars := by
  have hmark : Style.document.wholeMark.toList = ['.', '0'] := by decide
  rw [decimalSpelling, if_pos h, Decimal.positionalText]
  dsimp only
  by_cases hexp : 0 ≤ d.exponent
  · rw [if_pos hexp, if_pos hexp, String.toList_append, hmark]
    simp [chars, fractionChars, exponentChars]
  · rw [if_neg hexp, if_neg hexp]
    by_cases hplaces : (-d.exponent).toNat < d.digits.length
    · simp [chars, fractionChars, exponentChars, hplaces]
    · simp [chars, fractionChars, exponentChars, hplaces]

theorem toList_scientificText {negative : Bool} {d : Decimal}
    (h : ¬Style.document.positional d.leading = true) :
    (if negative then ['-'] else []) ++ d.scientificText.toList =
      (decimalSpelling negative d).chars := by
  rw [decimalSpelling, if_neg h, Decimal.scientificText]
  dsimp only
  rcases d.digits with _ | ⟨first, _ | ⟨second, more⟩⟩ <;> by_cases hneg : d.leading < 0 <;>
    simp [chars, fractionChars, exponentChars, hneg]

theorem finiteText_document (x : Finite) :
    Style.document.finiteText x = String.ofList (finiteSpelling x).chars := by
  have hdecimal : Style.document.decimal x = x.shortest .even := rfl
  rw [← String.toList_inj, String.toList_ofList, Style.finiteText, hdecimal, finiteSpelling]
  rw [String.toList_append, toList_sign]
  by_cases h : Style.document.positional (x.shortest .even).leading = true
  · rw [if_pos h]
    exact toList_positionalText h
  · rw [if_neg h]
    exact toList_scientificText h

theorem digits_digits (d : Decimal) : Digits d.digits :=
  ⟨d.digits_ne_nil, fun _ => Decimal.isDigit_of_mem_digits⟩

theorem Spelling.Digits.of_subset {ds ds' : List Char} (h : Digits ds) (hne : ds' ≠ [])
    (hsub : ds' ⊆ ds) : Digits ds' :=
  ⟨hne, fun c hc => h.2 c (hsub hc)⟩

theorem Spelling.Digits.zeros_append {ds : List Char} (h : Digits ds) (n : Nat) :
    Digits (List.replicate n '0' ++ ds) := by
  refine ⟨by simp [h.1], fun c hc => ?_⟩
  rcases List.mem_append.1 hc with hc | hc
  · rw [List.eq_of_mem_replicate hc]
    rfl
  · exact h.2 c hc

theorem Spelling.Digits.append_zeros {ds : List Char} (h : Digits ds) (n : Nat) :
    Digits (ds ++ List.replicate n '0') :=
  (h.zeros_append n).of_subset (by simp [h.1]) fun _ hc =>
    List.mem_append.2 (List.mem_append.1 hc).symm

/-- Only zero itself starts with a zero, and has no other digit. -/
theorem eq_nil_of_digits_eq {d : Decimal} (h : 0 < d.significand ∨ d = ⟨0, 0⟩)
    {more : List Char} (hmore : d.digits = '0' :: more) : more = [] ∧ d.exponent = 0 := by
  rcases h with hpos | rfl
  · have hhead := Decimal.head?_digits hpos
    rw [hmore] at hhead
    exact absurd rfl hhead
  · cases hmore
    exact ⟨rfl, rfl⟩

theorem wellFormed_positional (negative : Bool) {d : Decimal}
    (h : 0 < d.significand ∨ d = ⟨0, 0⟩)
    (hpositional : Style.document.positional d.leading = true) :
    (decimalSpelling negative d).WellFormed := by
  have hdigits := digits_digits d
  have hzero : Digits ['0'] := ⟨by simp, by simp⟩
  have hleading : ∀ more, d.digits = '0' :: more → more = [] ∧ d.exponent = 0 :=
    fun _ => eq_nil_of_digits_eq h
  obtain ⟨c, cs, hcs⟩ := List.exists_cons_of_ne_nil hdigits.1
  rw [hcs] at hdigits hleading
  rw [decimalSpelling, if_pos hpositional, hcs]
  by_cases hexp : 0 ≤ d.exponent
  · rw [if_pos hexp]
    refine ⟨hdigits.append_zeros _, fun more hmore => ?_, ?_, nofun⟩
    · rw [List.cons_append, List.cons.injEq] at hmore
      obtain ⟨rfl, rfl⟩ := hmore
      obtain ⟨rfl, hexp⟩ := hleading cs rfl
      rw [hexp]
      rfl
    · rintro _ ⟨⟩
      exact hzero
  · rw [if_neg hexp]
    dsimp only
    split
    · rename_i hplaces
      obtain ⟨n, hn⟩ := Nat.exists_eq_add_one_of_ne_zero (Nat.sub_ne_zero_of_lt hplaces)
      rw [hn]
      refine ⟨hdigits.of_subset (by simp) (List.take_subset _ _), fun more hmore => ?_, ?_, nofun⟩
      · rw [List.take_succ_cons, List.cons.injEq] at hmore
        obtain ⟨rfl, -⟩ := hmore
        exact absurd (hleading cs rfl).2 (by omega)
      · rintro _ ⟨⟩
        refine hdigits.of_subset (fun hnil => ?_) (List.drop_subset _ _)
        rw [List.drop_eq_nil_iff] at hnil
        omega
    · refine ⟨hzero, fun _ h => by cases h; rfl, ?_, nofun⟩
      rintro _ ⟨⟩
      exact hdigits.zeros_append _

theorem wellFormed_scientific (negative : Bool) {d : Decimal}
    (h : 0 < d.significand ∨ d = ⟨0, 0⟩)
    (hpositional : ¬Style.document.positional d.leading = true) :
    (decimalSpelling negative d).WellFormed := by
  have hdigits := digits_digits d
  have hleading : ∀ more, d.digits = '0' :: more → more = [] ∧ d.exponent = 0 :=
    fun _ => eq_nil_of_digits_eq h
  have hpower : ∀ e ∈ some (decide (d.leading < 0), Nat.toDigits 10 d.leading.natAbs),
      Digits e.2 := by
    rintro _ ⟨⟩
    exact ⟨Nat.toDigits_ne_nil, fun _ => Nat.isDigit_of_mem_toDigits (by omega) (by omega)⟩
  rw [decimalSpelling, if_neg hpositional]
  dsimp only
  generalize d.digits = ds at hdigits hleading ⊢
  obtain _ | ⟨c, _ | ⟨c', cs⟩⟩ := ds
  · exact absurd rfl hdigits.1
  · exact ⟨hdigits, fun more hmore => (hleading more hmore).1, nofun, hpower⟩
  · refine ⟨hdigits.of_subset (by simp) (by simp), fun _ h => by cases h; rfl, ?_, hpower⟩
    rintro _ ⟨⟩
    exact hdigits.of_subset (by simp) (List.subset_cons_self _ _)

theorem wellFormed_decimalSpelling (negative : Bool) {d : Decimal}
    (h : 0 < d.significand ∨ d = ⟨0, 0⟩) : (decimalSpelling negative d).WellFormed := by
  by_cases hpositional : Style.document.positional d.leading = true
  · exact wellFormed_positional negative h hpositional
  · exact wellFormed_scientific negative h hpositional

theorem wellFormed_finiteSpelling (x : Finite) : (finiteSpelling x).WellFormed := by
  refine wellFormed_decimalSpelling _ ?_
  by_cases h : x.mantissa = 0
  · refine Or.inr ?_
    rw [Finite.shortest, if_pos h]
  · exact Or.inl (Finite.significand_shortest_pos h .even)

/-- The number that the document of a number reads as. A document has no numeral for a
number that is not finite. -/
def rereadNumber (x : Float) : Except Error Float :=
  match shape x with
  | .finite parts =>
    match (finiteSpelling parts).numeral.quantity with
    | some quantity => .ok quantity.toFloat
    | none => .error .numberOutOfRange
  | _ => .error (.invalidType .null .real)

theorem isBlank_eq_false {b : UInt8} (h : (b = Mark.minus || isDigit b) = true) :
    isBlank b = false := by
  cases hblank : isBlank b with
  | false => rfl
  | true =>
    simp only [isBlank, Bool.or_eq_true, beq_iff_eq] at hblank
    rcases hblank with ((rfl | rfl) | rfl) | rfl <;> cases h

theorem skipBlanks_cons {b : UInt8} (h : isBlank b = false) (s : List UInt8) :
    skipBlanks (b :: s) = b :: s := by
  simp [skipBlanks, h]

theorem real_text (bound : Nat) (x : Float) {s : List UInt8} (hs : Ends s) :
    real bound (bytes (Style.document.text x) ++ s) = (rereadNumber x).map (·, s) := by
  have hnull : real bound (bytes "null" ++ s) = .error (.invalidType .null .real) := by
    have hbytes : bytes "null" = Mark.lowerN :: restOfNull := by decide
    rw [hbytes]
    rfl
  unfold Style.text rereadNumber
  cases hshape : shape x with
  | notANumber => exact hnull
  | infinite negative => cases negative <;> exact hnull
  | finite parts =>
    have hwf := wellFormed_finiteSpelling parts
    obtain ⟨b, s', hbytes, hb⟩ : ∃ b s, (finiteSpelling parts).chars.flatMap
      String.utf8EncodeChar = b :: s ∧ _ := exists_chars hwf _
    have hread := numeral_spelling hwf hs
    dsimp only
    rw [finiteText_document, bytes_ofList]
    rw [hbytes] at hread ⊢
    unfold real
    rw [List.cons_append, skipBlanks_cons (isBlank_eq_false hb)]
    dsimp only
    rw [if_pos hb, quantity, ← List.cons_append, hread]
    cases hquantity : (finiteSpelling parts).numeral.quantity with
    | none => simp [bind, Except.bind, hquantity, throw, throwThe, MonadExceptOf.throw, Except.map]
    | some q => simp [bind, Except.bind, hquantity, pure, Except.pure, Except.map]

end TreeScript.Document
