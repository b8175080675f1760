import TreeScript.Proofs.Document.Escapes

/-!
# Tokens and blanks

`Rest bound ts s` says that what is left of a document, `s`, holds the tokens `ts` with
blanks between them. Every reader drops the blanks before it looks at a token, so one
lemma for each kind of token says what it then finds: `Rest.symbol`, `Rest.string`,
`Rest.figure`, `Rest.null` and `Rest.boolean`.
-/

namespace TreeScript.Document

open Spelling

variable {bound : Nat} {ts : List Token} {s : List UInt8}

/-! ## Numbers in any writing -/

theorem exponentDigits_of_digits {ds : List Char} (h : Digits ds) (hs : Ends s) :
    exponentDigits (ds.flatMap String.utf8EncodeChar ++ s) =
      .ok (some (ofDigits (ds.map digitOf) : Int), s) := by
  obtain ⟨n, ns, hmap, hdigits⟩ := digits_cases h fun b hb => (hs b hb).1
  obtain ⟨c, cs, rfl⟩ := List.exists_cons_of_ne_nil h.1
  obtain ⟨b, hb, hdigit, -⟩ := utf8EncodeChar_of_isDigit (h.2 c (List.mem_cons_self ..))
  have hsign : exponentSign (b :: (cs.flatMap String.utf8EncodeChar ++ s)) =
      (false, b :: (cs.flatMap String.utf8EncodeChar ++ s)) := by
    unfold exponentSign
    split
    · rename_i heq
      cases heq
      cases hdigit
    · rename_i heq
      cases heq
      cases hdigit
    · rfl
  rw [List.flatMap_cons, hb, List.append_assoc, List.singleton_append] at hdigits ⊢
  unfold exponentDigits
  rw [hsign]
  dsimp only
  rw [hdigits, hmap]
  rfl

namespace Figure

theorem exponentPart_chars (f : Figure) (hs : Ends s) :
    exponentPart (f.exponentChars.flatMap String.utf8EncodeChar ++ s) =
      .ok (f.spelling.numeral.exponent, s) := by
  obtain ⟨⟨negative, whole, fraction, exponent⟩, hwf, capital, signed⟩ := f
  cases exponent with
  | none => exact exponentPart_of_ends hs
  | some e =>
    obtain ⟨down, ds⟩ := e
    have hds : Digits ds := hwf.exponent _ rfl
    have hletter (t : List UInt8) : exponentPart (String.utf8EncodeChar
        (if capital then 'E' else 'e') ++ t) = exponentDigits t := by
      cases capital <;> rfl
    show exponentPart (String.utf8EncodeChar _ ++ _ ++ s) = _
    rw [List.append_assoc, hletter]
    cases down with
    | true => exact exponentDigits_of_sign Mark.minus (fun _ => rfl) hds hs
    | false =>
      cases signed with
      | true => exact exponentDigits_of_sign Mark.plus (fun _ => rfl) hds hs
      | false => exact exponentDigits_of_digits hds hs

theorem head?_exponentChars (f : Figure) (hs : Ends s) :
    ∀ b ∈ (f.exponentChars.flatMap String.utf8EncodeChar ++ s).head?,
      isDigit b = false ∧ b ≠ Mark.point := by
  obtain ⟨⟨negative, whole, fraction, exponent⟩, hwf, capital, signed⟩ := f
  intro b hb
  cases exponent with
  | none => exact ⟨(hs b hb).1, (hs b hb).2.1⟩
  | some e =>
    have hhead : b = Mark.upperE ∨ b = Mark.lowerE := by
      cases capital with
      | true => exact .inl (Option.some.inj hb).symm
      | false => exact .inr (Option.some.inj hb).symm
    rcases hhead with rfl | rfl <;> decide

/-- A number in any writing is passed. -/
theorem skipNumeral_chars (f : Figure) (hs : Ends s) :
    skipNumeral (encoded f.chars ++ s) = .ok s := by
  have hread : numeral (encoded f.chars ++ s) = .ok _ :=
    numeral_append f.wellFormed (f.head?_exponentChars hs) (f.exponentPart_chars hs)
  rw [skipNumeral, hread]

theorem exists_encoded_chars (f : Figure) :
    ∃ b w, encoded f.chars = b :: w ∧ (b = Mark.minus || isDigit b) = true :=
  exists_chars f.wellFormed _

end Figure

/-! ## The first token -/

def Symbol.byte : Symbol → UInt8
  | .comma => Mark.comma
  | .colon => Mark.colon
  | .listStart => Mark.listStart
  | .listEnd => Mark.listEnd
  | .objectStart => Mark.objectStart
  | .objectEnd => Mark.objectEnd

theorem encoded_symbol (m : Symbol) : encoded [m.char] = [m.byte] := by
  cases m <;> decide

/-- No token starts with a blank. -/
theorem exists_encoded_token (t : Token) :
    ∃ b w, encoded t.chars = b :: w ∧ isBlank b = false := by
  cases t with
  | symbol m => exact ⟨m.byte, [], encoded_symbol m, by cases m <;> decide⟩
  | null => exact ⟨_, _, rfl, by decide⟩
  | boolean b => cases b <;> exact ⟨_, _, rfl, by decide⟩
  | figure f =>
    obtain ⟨b, w, hw, hb⟩ := f.exists_encoded_chars
    exact ⟨b, w, hw, isBlank_eq_false hb⟩
  | string ps => exact ⟨Mark.quote, _, rfl, by decide⟩

theorem skipBlanks_encoded {c : Char} (hc : c ∈ [' ', '\t', '\n', '\r']) (cs : List Char) :
    skipBlanks (encoded (c :: cs)) = skipBlanks (encoded cs) := by
  have hblank : ∀ c ∈ [' ', '\t', '\n', '\r'], ∃ b, encoded [c] = [b] ∧ isBlank b = true := by
    simp only [List.forall_mem_cons]
    exact ⟨⟨_, rfl, rfl⟩, ⟨_, rfl, rfl⟩, ⟨_, rfl, rfl⟩, ⟨_, rfl, rfl⟩, nofun⟩
  obtain ⟨b, hb, hisBlank⟩ := hblank c hc
  have hsplit : encoded (c :: cs) = encoded [c] ++ encoded cs := encoded_append [c] cs
  rw [hsplit, hb]
  simp [skipBlanks, hisBlank]

theorem Spread.skipBlanks_cons {t : Token} {cs : List Char} (h : Spread (t :: ts) cs) :
    ∃ cs', skipBlanks (encoded cs) = encoded t.chars ++ encoded cs' ∧ Spread ts cs' := by
  generalize hts : t :: ts = all at h
  induction h with
  | nil => cases hts
  | blank hc _ ih =>
    rw [skipBlanks_encoded hc]
    exact ih hts
  | token t' h _ =>
    cases hts
    obtain ⟨b, w, hw, hb⟩ := exists_encoded_token t
    refine ⟨_, ?_, h⟩
    rw [encoded_append, hw, List.cons_append, Document.skipBlanks_cons hb]

theorem Spread.skipBlanks_nil {cs : List Char} (h : Spread [] cs) :
    skipBlanks (encoded cs) = [] := by
  generalize hts : ([] : List Token) = all at h
  induction h with
  | nil => rfl
  | blank hc _ ih =>
    rw [skipBlanks_encoded hc]
    exact ih hts
  | token => cases hts

/-! ## What is left of a document -/

/-- The tokens that are left, in some bytes. -/
structure Rest (bound : Nat) (ts : List Token) (s : List UInt8) : Prop where
  lt : s.length < bound
  spread : ∃ cs, Spread ts cs ∧ s = encoded cs

/-- What follows a number is no part of it. -/
def Delimited (ts : List Token) : Prop :=
  ∀ t ∈ ts.head?, ∃ m, t = .symbol m

theorem Delimited.symbol (m : Symbol) (ts : List Token) : Delimited (.symbol m :: ts) :=
  fun _ ht => ⟨m, (Option.some.inj ht).symm⟩

theorem length_skipBlanks_le (s : List UInt8) : (skipBlanks s).length ≤ s.length :=
  (List.dropWhile_suffix isBlank).length_le

namespace Rest

theorem nil (h : Rest bound [] s) : skipBlanks s = [] := by
  obtain ⟨-, cs, hcs, rfl⟩ := h
  exact hcs.skipBlanks_nil

theorem cons {t : Token} (h : Rest bound (t :: ts) s) : ∃ s',
    skipBlanks s = encoded t.chars ++ s' ∧ Rest bound ts s' ∧
      (encoded t.chars ++ s').length < bound := by
  obtain ⟨hlt, cs, hcs, rfl⟩ := h
  obtain ⟨cs', hskip, hcs'⟩ := hcs.skipBlanks_cons
  have hle := length_skipBlanks_le (encoded cs)
  rw [hskip, List.length_append] at hle
  refine ⟨encoded cs', hskip, ⟨by omega, cs', hcs', rfl⟩, ?_⟩
  rw [List.length_append]
  omega

theorem skipBlanks (h : Rest bound ts s) : Rest bound ts (skipBlanks s) := by
  refine ⟨Nat.lt_of_le_of_lt (length_skipBlanks_le s) h.lt, ?_⟩
  cases ts with
  | nil => exact ⟨[], .nil, h.nil⟩
  | cons t ts =>
    obtain ⟨s', hskip, ⟨-, cs', hcs', rfl⟩, -⟩ := h.cons
    exact ⟨t.chars ++ cs', .token t hcs', by rw [hskip, encoded_append]⟩

/-- Every token has a byte. -/
theorem length_le (h : Rest bound ts s) : ts.length ≤ s.length := by
  obtain ⟨-, cs, hcs, rfl⟩ := h
  induction hcs with
  | nil => exact Nat.zero_le _
  | blank hc _ ih =>
    rw [encoded_cons, List.length_append]
    omega
  | token t _ ih =>
    obtain ⟨b, w, hw, -⟩ := exists_encoded_token t
    rw [encoded_append, hw, List.length_append, List.length_cons, List.length_cons]
    omega

/-- The bound is enough for a step for each token. -/
theorem lt_of_le_length {tokens : List Token} {n : Nat} (h : Rest bound (tokens ++ ts) s)
    (hn : n ≤ tokens.length) : n < bound := by
  have hlength := h.length_le
  have hlt := h.lt
  rw [List.length_append] at hlength
  omega

theorem symbol {m : Symbol} (h : Rest bound (.symbol m :: ts) s) :
    ∃ s', Document.skipBlanks s = m.byte :: s' ∧ Rest bound ts s' := by
  obtain ⟨s', hskip, hrest, -⟩ := h.cons
  refine ⟨s', ?_, hrest⟩
  rw [hskip]
  exact congrArg (· ++ s') (encoded_symbol m)

/-- The colon after a key. -/
theorem colon (h : Rest bound (.symbol .colon :: ts) s) :
    ∃ s', Document.colon s = .ok s' ∧ Rest bound ts s' := by
  obtain ⟨s', hskip, hrest⟩ := h.symbol
  refine ⟨s', ?_, hrest⟩
  unfold Document.colon
  rw [hskip]
  rfl

theorem null (h : Rest bound (.null :: ts) s) : ∃ s₁ s',
    Document.skipBlanks s = Mark.lowerN :: s₁ ∧ word restOfNull s₁ = .ok s' ∧
      Rest bound ts s' := by
  obtain ⟨s', hskip, hrest, -⟩ := h.cons
  exact ⟨restOfNull ++ s', s', hskip, rfl, hrest⟩

theorem boolean {b : Bool} (h : Rest bound (.boolean b :: ts) s) : ∃ s₁ s',
    Document.skipBlanks s = (if b then Mark.lowerT else Mark.lowerF) :: s₁ ∧
      word (if b then restOfTrue else restOfFalse) s₁ = .ok s' ∧ Rest bound ts s' := by
  obtain ⟨s', hskip, hrest, -⟩ := h.cons
  cases b with
  | true => exact ⟨restOfTrue ++ s', s', hskip, rfl, hrest⟩
  | false => exact ⟨restOfFalse ++ s', s', hskip, rfl, hrest⟩

theorem string {ps : List Piece} (h : Rest bound (.string ps :: ts) s) : ∃ s₁ s',
    Document.skipBlanks s = Mark.quote :: s₁ ∧ skipText s₁ = .ok s' ∧
      (∀ x : String, Denotes ps x.toList → text bound s₁ = .ok (x, s')) ∧ Rest bound ts s' := by
  obtain ⟨s', hskip, hrest, hlt⟩ := h.cons
  have hchars : encoded (Token.string ps).chars ++ s' =
      Mark.quote :: (encoded (ps.flatMap Piece.chars) ++ Mark.quote :: s') := by
    have hquote : encoded ['"'] = [Mark.quote] := by decide
    show encoded (['"'] ++ (ps.flatMap Piece.chars ++ ['"'])) ++ s' = _
    rw [encoded_append, encoded_append, hquote, List.append_assoc, List.append_assoc]
    rfl
  rw [hchars] at hskip hlt
  exact ⟨_, s', hskip, skipText_pieces s' ps,
    fun x hx => text_pieces hx (Nat.lt_of_succ_lt hlt), hrest⟩

theorem ends (h : Rest bound ts s) (hts : Delimited ts) : Ends s := by
  obtain ⟨-, cs, hcs, rfl⟩ := h
  cases hcs with
  | nil => exact nofun
  | blank hc _ =>
    simp only [List.mem_cons, List.not_mem_nil, or_false] at hc
    rintro b hb
    rcases hc with rfl | rfl | rfl | rfl <;> cases hb <;> decide
  | token t _ =>
    obtain ⟨m, rfl⟩ := hts t rfl
    rintro b hb
    cases m <;> cases hb <;> decide

theorem figure {f : Figure} (h : Rest bound (.figure f :: ts) s) (hts : Delimited ts) :
    ∃ b s₁ s', Document.skipBlanks s = b :: s₁ ∧ (b = Mark.minus || isDigit b) = true ∧
      b :: s₁ = encoded f.chars ++ s' ∧ skipNumeral (b :: s₁) = .ok s' ∧ Ends s' ∧
        Rest bound ts s' := by
  obtain ⟨s', hskip, hrest, -⟩ := h.cons
  obtain ⟨b, w, hw, hb⟩ := f.exists_encoded_chars
  have hends := hrest.ends hts
  have hsplit : encoded (Token.figure f).chars ++ s' = b :: (w ++ s') := by
    show encoded f.chars ++ s' = _
    rw [hw]
    rfl
  refine ⟨b, w ++ s', s', hskip.trans hsplit, hb, hsplit.symm, ?_, hends, hrest⟩
  rw [← hsplit]
  exact f.skipNumeral_chars hends

end Rest

end TreeScript.Document
