import TreeScript.Document.Skip
import TreeScript.Proofs.Document.Spacing

/-!
# Values that are passed

`skipValue` passes any document, however it is written. It keeps the open brackets in a list
and counts its steps, so the statement about it counts them too: with no more steps than
there are tokens, the reader is behind a value and the brackets are as before
(`passes_tokens`).
-/

namespace TreeScript.Document

variable {bound : Nat} {ts : List Token} {s : List UInt8}

/-- What comes before the value of a member. -/
theorem skipKey_tokens {key : List Piece}
    (h : Rest bound (.string key :: .symbol .colon :: ts) s) :
    ∃ s', skipKey s = .ok s' ∧ Rest bound ts s' := by
  obtain ⟨s₁, s₂, hskip, htext, -, hrest⟩ := h.string
  obtain ⟨s', hcolon, hrest'⟩ := hrest.colon
  refine ⟨s', ?_, hrest'⟩
  unfold skipKey
  rw [hskip]
  show (skipText s₁ >>= colon) = _
  rw [htext]
  exact hcolon

/-- A token that may stand at the start of a value. -/
def Token.Starts : Token → Prop
  | .symbol m => m = .listStart ∨ m = .objectStart
  | _ => True

theorem Json.exists_tokens (j : Json) : ∃ t ts, j.tokens = t :: ts ∧ t.Starts := by
  cases j with
  | null => exact ⟨_, _, rfl, trivial⟩
  | boolean b => exact ⟨_, _, rfl, trivial⟩
  | number f => exact ⟨_, _, rfl, trivial⟩
  | string ps => exact ⟨_, _, rfl, trivial⟩
  | list items => exact ⟨_, _, rfl, .inl rfl⟩
  | object members => exact ⟨_, _, rfl, .inr rfl⟩

/-- A value is not taken for the end of a list. -/
theorem Rest.starts {j : Json} (h : Rest bound (j.tokens ++ ts) s) :
    ∃ b w, Document.skipBlanks s = b :: w ∧ b ≠ Mark.listEnd := by
  obtain ⟨t, ts', hj, ht⟩ := j.exists_tokens
  rw [hj] at h
  obtain ⟨s', hskip, -, -⟩ := h.cons
  have hbyte : ∃ b w, encoded t.chars = b :: w ∧ b ≠ Mark.listEnd := by
    cases t with
    | symbol m => rcases ht with rfl | rfl <;> exact ⟨_, _, rfl, by decide⟩
    | null => exact ⟨_, _, rfl, by decide⟩
    | boolean b => cases b <;> exact ⟨_, _, rfl, by decide⟩
    | figure f =>
      obtain ⟨b, w, hw, hb⟩ := f.exists_encoded_chars
      refine ⟨b, w, hw, ?_⟩
      rintro rfl
      cases hb
    | string ps => exact ⟨Mark.quote, _, rfl, by decide⟩
  obtain ⟨b, w, hw, hb⟩ := hbyte
  exact ⟨b, w ++ s', by rw [hskip, hw]; rfl, hb⟩

/-- Passing a part of a document takes some steps, after which the reader stands behind it. -/
def Passes (bound : Nat) (tokens : List Token) (a a' : Awaited)
    (brackets brackets' : List Bracket) : Prop :=
  ∀ ts s, Delimited ts → Rest bound (tokens ++ ts) s → ∃ steps ≤ tokens.length, ∃ s',
    (∀ more, skipNested (steps + more) a brackets s = skipNested more a' brackets' s') ∧
      Rest bound ts s'

namespace Passes

variable {tokens tokens' : List Token} {a₁ a₂ a₃ : Awaited} {b₁ b₂ b₃ : List Bracket}

theorem append (h : Passes bound tokens a₁ a₂ b₁ b₂) (h' : Passes bound tokens' a₂ a₃ b₂ b₃)
    (hdelimited : ∀ ts, Delimited (tokens' ++ ts)) :
    Passes bound (tokens ++ tokens') a₁ a₃ b₁ b₃ := by
  intro ts s hts hs
  rw [List.append_assoc] at hs
  obtain ⟨steps, hle, s₁, hrun, hs₁⟩ := h _ s (hdelimited ts) hs
  obtain ⟨steps', hle', s', hrun', hs'⟩ := h' ts s₁ hts hs₁
  refine ⟨steps + steps', by rw [List.length_append]; omega, s', fun more => ?_, hs'⟩
  rw [Nat.add_assoc, hrun, hrun']

/-- One step. -/
theorem one (hne : tokens ≠ []) (h : ∀ ts s, Delimited ts → Rest bound (tokens ++ ts) s →
    ∃ s', (∀ more, skipNested (more + 1) a₁ b₁ s = skipNested more a₂ b₂ s') ∧
      Rest bound ts s') : Passes bound tokens a₁ a₂ b₁ b₂ := by
  intro ts s hts hs
  obtain ⟨s', hrun, hs'⟩ := h ts s hts hs
  refine ⟨1, List.length_pos_iff.2 hne, s', fun more => ?_, hs'⟩
  rw [Nat.add_comm, hrun]

/-- One step that has to see what follows. -/
theorem step (tokens : List Token) (hne : tokens ≠ [])
    (h : ∀ ts s, Rest bound (tokens ++ (tokens' ++ ts)) s →
      ∃ s', (∀ more, skipNested (more + 1) a₁ b₁ s = skipNested more a₂ b₂ s') ∧
        Rest bound (tokens' ++ ts) s') (h' : Passes bound tokens' a₂ a₃ b₂ b₃) :
    Passes bound (tokens ++ tokens') a₁ a₃ b₁ b₃ := by
  intro ts s hts hs
  rw [List.append_assoc] at hs
  obtain ⟨s₁, hrun, hs₁⟩ := h ts s hs
  obtain ⟨steps, hle, s', hrun', hs'⟩ := h' ts s₁ hts hs₁
  have hpos := List.length_pos_iff.2 hne
  refine ⟨steps + 1, by rw [List.length_append]; omega, s', fun more => ?_, hs'⟩
  rw [Nat.add_right_comm, hrun, hrun']

end Passes

theorem skipScalar_of_number {b : UInt8} (hb : (b = Mark.minus || isDigit b) = true)
    (s : List UInt8) : skipScalar (b :: s) = skipNumeral (b :: s) := by
  have hne {b' : UInt8} (hb' : (b' = Mark.minus || isDigit b') = false) : b ≠ b' := by
    rintro rfl
    rw [hb] at hb'
    cases hb'
  rw [skipScalar, if_pos hb]
  · exact hne rfl
  · exact hne rfl
  · exact hne rfl
  · exact hne rfl

theorem passes_scalar (brackets : List Bracket) {t : Token}
    (h : ∀ ts s, Delimited ts → Rest bound (t :: ts) s → ∃ b w s', skipBlanks s = b :: w ∧
      b ≠ Mark.listStart ∧ b ≠ Mark.objectStart ∧ skipScalar (b :: w) = .ok s' ∧
        Rest bound ts s') : Passes bound [t] .value .more brackets brackets := by
  refine Passes.one (List.cons_ne_nil _ _) fun ts s hts hs => ?_
  obtain ⟨b, w, s', hskip, hlist, hobject, hscalar, hrest⟩ := h ts s hts hs
  refine ⟨s', fun more => ?_, hrest⟩
  rw [skipNested]
  rw [hskip]
  split
  · rename_i heq
    cases heq
    exact absurd rfl hlist
  · rename_i heq
    cases heq
    exact absurd rfl hobject
  · rw [hscalar]
    rfl

theorem delimited_itemTokens (js : List Json) (ts : List Token) :
    Delimited (Json.itemTokens false js ++ ts) := by
  cases js <;> exact .symbol _ _

theorem delimited_memberTokens (ms : List (List Piece × Json)) (ts : List Token) :
    Delimited (Json.memberTokens false ms ++ ts) := by
  cases ms <;> exact .symbol _ _

theorem skipNested_listStart {more : Nat} {brackets : List Bracket} {s₁ : List UInt8}
    (h : skipBlanks s = Mark.listStart :: s₁) : skipNested (more + 1) .value brackets s =
      match skipBlanks s₁ with
      | [] => .error .endInList
      | Mark.listEnd :: s => skipNested more .more brackets s
      | s => skipNested more .value (.list :: brackets) s := by
  rw [skipNested, h]
  rfl

theorem skipNested_objectStart {more : Nat} {brackets : List Bracket} {s₁ : List UInt8}
    (h : skipBlanks s = Mark.objectStart :: s₁) : skipNested (more + 1) .value brackets s =
      match skipBlanks s₁ with
      | Mark.objectEnd :: s => skipNested more .more brackets s
      | s => skipKey s >>= skipNested more .value (.object :: brackets) := by
  rw [skipNested, h]
  rfl

mutual

/-- A value is passed, however it is written. -/
theorem passes_tokens (bound : Nat) (brackets : List Bracket) :
    ∀ j : Json, Passes bound j.tokens .value .more brackets brackets
  | .null => passes_scalar brackets fun ts s hts hs => by
    obtain ⟨s₁, s', hskip, hword, hrest⟩ := hs.null
    exact ⟨_, s₁, s', hskip, by decide, by decide, hword, hrest⟩
  | .boolean b => passes_scalar brackets fun ts s hts hs => by
    obtain ⟨s₁, s', hskip, hword, hrest⟩ := hs.boolean
    cases b <;> exact ⟨_, s₁, s', hskip, by decide, by decide, hword, hrest⟩
  | .number f => passes_scalar brackets fun ts s hts hs => by
    obtain ⟨b, s₁, s', hskip, hb, -, hnumeral, -, hrest⟩ := hs.figure hts
    refine ⟨b, s₁, s', hskip, ?_, ?_, ?_, hrest⟩
    · rintro rfl
      cases hb
    · rintro rfl
      cases hb
    · exact (skipScalar_of_number hb s₁).trans hnumeral
  | .string ps => passes_scalar brackets fun ts s hts hs => by
    obtain ⟨s₁, s', hskip, htext, -, hrest⟩ := hs.string
    exact ⟨_, s₁, s', hskip, by decide, by decide, htext, hrest⟩
  | .list [] => Passes.one (List.cons_ne_nil _ _) fun ts s hts hs => by
    obtain ⟨s₁, hskip, hs₁⟩ := hs.symbol
    obtain ⟨s', hskip', hs'⟩ := hs₁.symbol
    refine ⟨s', fun more => ?_, hs'⟩
    rw [skipNested_listStart hskip, hskip']
    rfl
  | .list (j :: js) => by
    refine Passes.step [.symbol .listStart] (List.cons_ne_nil _ _) (fun ts s hs => ?_)
      ((passes_tokens bound (.list :: brackets) j).append (passes_items bound brackets js)
        (delimited_itemTokens js))
    obtain ⟨s₁, hskip, hs₁⟩ := hs.symbol
    refine ⟨skipBlanks s₁, fun more => ?_, Rest.skipBlanks hs₁⟩
    have hitems : Rest bound (j.tokens ++ (Json.itemTokens false js ++ ts)) s₁ := by
      simpa [separator] using hs₁
    obtain ⟨b, w, hskip', hb⟩ := hitems.starts
    rw [skipNested_listStart hskip, hskip']
    split
    · rename_i heq
      cases heq
    · rename_i heq
      cases heq
      exact absurd rfl hb
    · rfl
  | .object [] => Passes.one (List.cons_ne_nil _ _) fun ts s hts hs => by
    obtain ⟨s₁, hskip, hs₁⟩ := hs.symbol
    obtain ⟨s', hskip', hs'⟩ := hs₁.symbol
    refine ⟨s', fun more => ?_, hs'⟩
    rw [skipNested_objectStart hskip, hskip']
    rfl
  | .object ((key, j) :: ms) => by
    refine Passes.step [.symbol .objectStart, .string key, .symbol .colon]
      (List.cons_ne_nil _ _) (fun ts s hs => ?_)
      ((passes_tokens bound (.object :: brackets) j).append (passes_members bound brackets ms)
        (delimited_memberTokens ms))
    obtain ⟨s₁, hskip, hs₁⟩ := hs.symbol
    obtain ⟨s', hkey, hs'⟩ := skipKey_tokens (Rest.skipBlanks hs₁)
    obtain ⟨w, -, hskip', -⟩ := Rest.string hs₁
    refine ⟨s', fun more => ?_, hs'⟩
    rw [hskip'] at hkey
    rw [skipNested_objectStart hskip, hskip']
    show (skipKey (Mark.quote :: w) >>= _) = _
    rw [hkey]
    rfl

theorem passes_items (bound : Nat) (brackets : List Bracket) : ∀ js : List Json,
    Passes bound (Json.itemTokens false js) .more .more (.list :: brackets) brackets
  | [] => Passes.one (List.cons_ne_nil _ _) fun ts s hts hs => by
    obtain ⟨s', hskip, hs'⟩ := hs.symbol
    refine ⟨s', fun more => ?_, hs'⟩
    rw [skipNested, hskip]
    rfl
  | j :: js => by
    refine Passes.step [.symbol .comma] (List.cons_ne_nil _ _) (fun ts s hs => ?_)
      ((passes_tokens bound (.list :: brackets) j).append (passes_items bound brackets js)
        (delimited_itemTokens js))
    obtain ⟨s', hskip, hs'⟩ := hs.symbol
    refine ⟨s', fun more => ?_, hs'⟩
    rw [skipNested, hskip]
    rfl

theorem passes_members (bound : Nat) (brackets : List Bracket) :
    ∀ ms : List (List Piece × Json),
      Passes bound (Json.memberTokens false ms) .more .more (.object :: brackets) brackets
  | [] => Passes.one (List.cons_ne_nil _ _) fun ts s hts hs => by
    obtain ⟨s', hskip, hs'⟩ := hs.symbol
    refine ⟨s', fun more => ?_, hs'⟩
    rw [skipNested, hskip]
    rfl
  | (key, j) :: ms => by
    refine Passes.step [.symbol .comma, .string key, .symbol .colon]
      (List.cons_ne_nil _ _) (fun ts s hs => ?_)
      ((passes_tokens bound (.object :: brackets) j).append (passes_members bound brackets ms)
        (delimited_memberTokens ms))
    obtain ⟨s₁, hskip, hs₁⟩ := hs.symbol
    obtain ⟨s', hkey, hs'⟩ := skipKey_tokens hs₁
    refine ⟨s', fun more => ?_, hs'⟩
    rw [skipNested, hskip]
    show (skipKey s₁ >>= _) = _
    rw [hkey]
    rfl

end

/-- A value whose brackets are all closed again is passed within the bound. -/
theorem skipValue_tokens {j : Json} (hts : Delimited ts) (h : Rest bound (j.tokens ++ ts) s) :
    ∃ s', skipValue bound s = .ok s' ∧ Rest bound ts s' := by
  obtain ⟨steps, hsteps, s', hrun, hs'⟩ := passes_tokens bound [] j ts s hts h
  have hlt := h.lt_of_le_length hsteps
  obtain ⟨more, rfl⟩ : ∃ more, bound = steps + (more + 1) := ⟨bound - steps - 1, by omega⟩
  exact ⟨s', hrun (more + 1), hs'⟩

end TreeScript.Document
