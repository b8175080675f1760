import Mathlib.Data.List.DropRight
import TreeScript.Proofs.Document.Layout
import TreeScript.Proofs.Document.Reload
import TreeScript.Proofs.Document.Skipping

/-!
# Readers on tokens

`Reads bound tokens reader a` says that a reader makes `a` of some tokens, wherever the
blanks are between them, and leaves the tokens that follow. The readers for scalars, for
the commas of lists and objects and for variants each have a lemma of this form, from
which values and operators are read in any layout (`reads_value`, `reads_operator`).
-/

namespace TreeScript.Document

variable {α τ : Type} {bound depth : Nat} {ts : List Token} {s : List UInt8}

/-- The reader takes the tokens from the front, and makes this of them. -/
def Reads (bound : Nat) (tokens : List Token) (reader : Reader α) (a : α) : Prop :=
  ∀ ts s, Delimited ts → Rest bound (tokens ++ ts) s →
    ∃ s', reader s = .ok (a, s') ∧ Rest bound ts s'

/-- Something is done with what was read. -/
theorem Reads.map {β : Type} {tokens : List Token} {reader : Reader α} {a : α} (f : α → β)
    (h : Reads bound tokens reader a) :
    Reads bound tokens (fun s => reader s >>= fun p => pure (f p.1, p.2)) (f a) := by
  intro ts s hts hs
  obtain ⟨s', hread, hs'⟩ := h ts s hts hs
  refine ⟨s', ?_, hs'⟩
  show (reader s >>= fun p => pure (f p.1, p.2)) = _
  rw [hread]
  rfl

/-! ## Scalars -/

theorem reads_null (bound : Nat) : Reads bound [.null] (null bound) () := by
  intro ts s _ hs
  obtain ⟨s₁, s', hskip, hword, hs'⟩ := hs.null
  refine ⟨s', ?_, hs'⟩
  unfold null
  rw [hskip]
  show (word restOfNull s₁ >>= fun s => pure ((), s)) = _
  rw [hword]
  rfl

theorem reads_boolean (bound : Nat) (b : Bool) : Reads bound [.boolean b] (boolean bound) b := by
  intro ts s _ hs
  obtain ⟨s₁, s', hskip, hword, hs'⟩ := hs.boolean
  refine ⟨s', ?_, hs'⟩
  unfold boolean
  rw [hskip]
  cases b with
  | true =>
    show (word restOfTrue s₁ >>= fun s => pure (true, s)) = _
    rw [show word restOfTrue s₁ = .ok s' from hword]
    rfl
  | false =>
    show (word restOfFalse s₁ >>= fun s => pure (false, s)) = _
    rw [show word restOfFalse s₁ = .ok s' from hword]
    rfl

theorem reads_string {ps : List Piece} {x : String} (hx : Denotes ps x.toList) :
    Reads bound [.string ps] (string bound) x := by
  intro ts s _ hs
  obtain ⟨s₁, s', hskip, -, htext, hs'⟩ := hs.string
  refine ⟨s', ?_, hs'⟩
  unfold string
  rw [hskip]
  exact htext x hx

theorem skipBlanks_skipBlanks (s : List UInt8) : skipBlanks (skipBlanks s) = skipBlanks s :=
  List.dropWhile_idempotent isBlank s

theorem reads_real {f : Figure} {x y : Float}
    (hf : f.chars = (Number.Style.document.text x).toList) (hy : rereadNumber x = .ok y) :
    Reads bound [.figure f] (real bound) y := by
  intro ts s hts hs
  obtain ⟨b, s₁, s', hskip, -, hchars, -, hends, hs'⟩ := hs.figure hts
  refine ⟨s', ?_, hs'⟩
  have hreal : real bound s = real bound (skipBlanks s) := by
    unfold real
    rw [skipBlanks_skipBlanks]
  rw [hreal, hskip, hchars, hf, ← bytes_eq_encoded, real_text bound x hends, hy]
  rfl

/-! ## Variants -/

theorem Rest.endOfVariant (h : Rest bound (.symbol .objectEnd :: ts) s) :
    ∃ s', Document.endOfVariant s = .ok s' ∧ Rest bound ts s' := by
  obtain ⟨s', hskip, hs'⟩ := h.symbol
  refine ⟨s', ?_, hs'⟩
  unfold Document.endOfVariant
  rw [hskip]
  rfl

theorem reads_variantName {ps : List Piece} {name : String} (hname : Denotes ps name.toList) :
    Reads bound [.string ps] (variantName bound) name := by
  intro ts s _ hs
  obtain ⟨s₁, s', hskip, -, htext, hs'⟩ := hs.string
  refine ⟨s', ?_, hs'⟩
  unfold variantName
  rw [hskip]
  exact htext name hname

variable {known : List τ} {nameOf : τ → String} {bare : τ → Except Error α} {v : τ} {a : α}

/-- A variant without content, as its name alone. -/
theorem reads_variant_named {content : Option (τ → Reader α)} {j : Json}
    (hv : choose known nameOf (nameOf v) = .ok v) (hbare : bare v = .ok a)
    (hj : Named (nameOf v) j) :
    Reads bound j.tokens (variant bound known nameOf bare content) a := by
  obtain ⟨ps, hps, rfl⟩ := hj
  intro ts s _ hs
  obtain ⟨s₁, s', hskip, -, htext, hs'⟩ := hs.string
  refine ⟨s', ?_, hs'⟩
  unfold variant
  rw [hskip]
  show (text bound s₁ >>= fun p => choose known nameOf p.1 >>= fun v =>
    bare v >>= fun r => pure (r, p.2)) = _
  rw [htext _ hps]
  show (choose known nameOf (nameOf v) >>= fun v => bare v >>= fun r => pure (r, s')) = _
  rw [hv]
  show (bare v >>= fun r => pure (r, s')) = _
  rw [hbare]
  rfl

/-- A variant with content, as an object. -/
theorem reads_variant_tagged {content : τ → Reader α} {layout : Json → Prop} {j : Json}
    (hv : choose known nameOf (nameOf v) = .ok v) (hj : Tagged (nameOf v) layout j)
    (hcontent : ∀ c, layout c → c.nesting + 1 = j.nesting → Reads bound c.tokens (content v) a) :
    Reads bound j.tokens (variant bound known nameOf bare (some content)) a := by
  obtain ⟨key, c, hkey, hc, rfl⟩ := hj
  intro ts s _ hs
  have hs₀ : Rest bound (.symbol .objectStart :: .string key :: .symbol .colon ::
      (c.tokens ++ .symbol .objectEnd :: ts)) s := by
    simpa [Json.tokens, Json.memberTokens, separator] using hs
  obtain ⟨s₁, hskip, hs₁⟩ := hs₀.symbol
  obtain ⟨s₂, hname, hs₂⟩ := reads_variantName hkey _ _ (.symbol _ _) hs₁
  obtain ⟨s₃, hcolon, hs₃⟩ := hs₂.colon
  obtain ⟨s₄, hread, hs₄⟩ := hcontent c hc (by simp [Json.nesting, Json.nestingOfMembers]) _ _
    (.symbol _ _) hs₃
  obtain ⟨s', hend, hs'⟩ := hs₄.endOfVariant
  refine ⟨s', ?_, hs'⟩
  unfold variant
  rw [hskip]
  show (variantName bound s₁ >>= fun p => choose known nameOf p.1 >>= fun v =>
    colon p.2 >>= fun s => content v s >>= fun q =>
      endOfVariant q.2 >>= fun s => pure (q.1, s)) = _
  rw [hname]
  show (choose known nameOf (nameOf v) >>= fun v => colon s₂ >>= fun s =>
    content v s >>= fun q => endOfVariant q.2 >>= fun s => pure (q.1, s)) = _
  rw [hv, hcolon]
  show (content v s₃ >>= fun q => endOfVariant q.2 >>= fun s => pure (q.1, s)) = _
  rw [hread]
  show (endOfVariant s₄ >>= fun s => pure (a, s)) = _
  rw [hend]
  rfl

/-- The same where its object may be opened. -/
theorem reads_variant_inBracket {content : τ → Reader α} {layout : Json → Prop} {j : Json}
    (hv : choose known nameOf (nameOf v) = .ok v) (hj : Tagged (nameOf v) layout j)
    (hnesting : j.nesting ≤ depth) (hcontent : ∀ c, layout c → Reads bound c.tokens (content v) a) :
    Reads bound j.tokens (variant bound known nameOf bare (inBracket depth content)) a := by
  have hdepth : depth ≠ 0 := by
    obtain ⟨key, c, -, -, rfl⟩ := hj
    rw [Json.nesting] at hnesting
    omega
  rw [inBracket, if_neg hdepth]
  exact reads_variant_tagged hv hj fun c hc _ => hcontent c hc

/-- An operator in any layout. -/
theorem reads_operator {op : Operator} {j : Json} (hj : op.Layout j)
    (hnesting : j.nesting ≤ depth) : Reads bound j.tokens (operator bound depth) op := by
  rcases hj with hj | hj
  · exact reads_variant_named (choose_operator op) rfl hj
  · refine reads_variant_inBracket (choose_operator op) hj hnesting ?_
    rintro c rfl
    exact (reads_null bound).map fun _ => op

/-- A value in any layout. -/
theorem reads_value {v w : Value} {j : Json} (hj : v.Layout j) (hw : reloadValue v depth = .ok w)
    (hnesting : j.nesting ≤ depth) : Reads bound j.tokens (value bound depth) w := by
  cases v with
  | number x =>
    obtain ⟨-, -, hx⟩ := opening_eq_ok hw
    obtain ⟨y, hy, rfl⟩ := exists_of_map_eq_ok hx
    refine reads_variant_inBracket (choose_valueKind .number) hj hnesting ?_
    rintro c ⟨f, hf, rfl⟩
    exact (reads_real hf hy).map Value.number
  | boolean b =>
    obtain ⟨-, -, hx⟩ := opening_eq_ok hw
    cases hx
    refine reads_variant_inBracket (choose_valueKind .boolean) hj hnesting ?_
    rintro c rfl
    exact (reads_boolean bound b).map Value.boolean
  | string x =>
    obtain ⟨-, -, hx⟩ := opening_eq_ok hw
    cases hx
    refine reads_variant_inBracket (choose_valueKind .string) hj hnesting ?_
    rintro c ⟨ps, hps, rfl⟩
    exact (reads_string hps).map Value.string
  | unit =>
    cases hw
    rcases hj with hj | hj
    · exact reads_variant_named (v := Value.Kind.unit) (choose_valueKind .unit) rfl hj
    · refine reads_variant_inBracket (v := Value.Kind.unit) (choose_valueKind .unit) hj hnesting ?_
      rintro c rfl
      exact (reads_null bound).map fun _ => Value.unit

/-! ## Members and items -/

theorem reads_objectEnd (isFirst : Bool) :
    Reads bound [.symbol .objectEnd] (nextKey bound isFirst) none := by
  intro ts s _ hs
  obtain ⟨s', hskip, hs'⟩ := hs.symbol
  refine ⟨s', ?_, hs'⟩
  unfold nextKey
  rw [hskip]
  rfl

theorem reads_key (isFirst : Bool) {key : List Piece} {name : String}
    (hname : Denotes key name.toList) :
    Reads bound (separator isFirst ++ [.string key]) (nextKey bound isFirst) (some name) := by
  intro ts s _ hs
  rw [List.append_assoc] at hs
  cases isFirst with
  | true =>
    obtain ⟨s₁, s', hskip, -, htext, hs'⟩ := hs.string
    refine ⟨s', ?_, hs'⟩
    unfold nextKey
    rw [hskip]
    show (text bound s₁ >>= fun p => pure (some p.1, p.2)) = _
    rw [htext _ hname]
    rfl
  | false =>
    obtain ⟨s₁, hcomma, hs₁⟩ := hs.symbol
    obtain ⟨s₂, s', hskip, -, htext, hs'⟩ := hs₁.string
    refine ⟨s', ?_, hs'⟩
    unfold nextKey
    rw [hcomma]
    -- The comma is a literal, so what is done about it can be computed.
    conv_lhs => whnf
    rw [hskip]
    show (text bound s₂ >>= fun p => pure (some p.1, p.2)) = _
    rw [htext _ hname]
    rfl

theorem moreItems_of_ne {b : UInt8} {w : List UInt8} (h : skipBlanks s = b :: w)
    (hb : b ≠ Mark.listEnd) : moreItems true s = .ok (true, b :: w) := by
  unfold moreItems
  rw [h]
  split
  · rename_i heq
    cases heq
  · rename_i heq
    cases heq
    exact absurd rfl hb
  · rename_i heq
    cases heq
    rfl

/-- Another item follows. -/
theorem Rest.moreItems {isFirst : Bool} {j : Json}
    (h : Rest bound (separator isFirst ++ (j.tokens ++ ts)) s) :
    ∃ s', Document.moreItems isFirst s = .ok (true, s') ∧ Rest bound (j.tokens ++ ts) s' := by
  cases isFirst with
  | true =>
    have hrest : Rest bound (j.tokens ++ ts) s := h
    obtain ⟨b, w, hskip, hb⟩ := hrest.starts
    exact ⟨_, moreItems_of_ne hskip hb, hskip ▸ hrest.skipBlanks⟩
  | false =>
    obtain ⟨s₁, hcomma, hs₁⟩ := Rest.symbol h
    obtain ⟨b, w, hskip, hb⟩ := hs₁.starts
    refine ⟨_, ?_, hskip ▸ hs₁.skipBlanks⟩
    unfold Document.moreItems
    rw [hcomma]
    conv_lhs => whnf
    rw [hskip]
    split
    · rename_i heq
      cases heq
    · rename_i heq
      cases heq
      exact absurd rfl hb
    · rfl

/-- No other item follows, and the end of the list is left. -/
theorem Rest.noMoreItems (isFirst : Bool) (h : Rest bound (.symbol .listEnd :: ts) s) :
    ∃ s', Document.moreItems isFirst s = .ok (false, s') ∧
      Rest bound (.symbol .listEnd :: ts) s' := by
  obtain ⟨w, hskip, -⟩ := h.symbol
  refine ⟨_, ?_, h.skipBlanks⟩
  unfold Document.moreItems
  rw [hskip]
  rfl

theorem Rest.endOfList (h : Rest bound (.symbol .listEnd :: ts) s) :
    ∃ s', Document.endOfList s = .ok s' ∧ Rest bound ts s' := by
  obtain ⟨s', hskip, hs'⟩ := h.symbol
  refine ⟨s', ?_, hs'⟩
  unfold Document.endOfList
  rw [hskip]
  rfl

end TreeScript.Document
