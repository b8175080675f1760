import TreeScript.Loading
import TreeScript.Proofs.Document.Reload
import TreeScript.Proofs.Number.Bits

/-!
# Storing and loading

A tree comes back from its document unchanged if its brackets nest within the limit and
each of its numbers comes back alone. A tree that nests deeper does not load, and
neither does one with a number that is not finite (`loadTree_encode`).

Both failures come up from the place in the tree where they arise, since `reload` goes
through all of it. `Fails` passes through the sequences and brackets on the way.
-/

namespace TreeScript

/-! ## Numbers of a tree -/

def Value.numbers : Value → List Float
  | .number x => [x]
  | _ => []

mutual

/-- The numbers that occur as literals. -/
def Node.numbers : Node → List Float
  | .literal v => v.numbers
  | .print inner => inner.numbers
  | .binary _ left right => left.numbers ++ right.numbers
  | .ifThen test body => test.numbers ++ body.numbers
  | .ifElse test body otherwise => test.numbers ++ body.numbers ++ otherwise.numbers
  | .whileLoop test body => test.numbers ++ body.numbers
  | .block nodes => Node.numbersOfAll nodes
  | .var _ => []
  | .identifier _ => []
  | .assign target value => target.numbers ++ value.numbers
  | .inspect inner => inner.numbers

def Node.numbersOfAll : List Node → List Float
  | [] => []
  | node :: nodes => node.numbers ++ Node.numbersOfAll nodes

end

theorem Node.numbersOfAll_eq_flatMap (nodes : List Node) :
    Node.numbersOfAll nodes = nodes.flatMap Node.numbers := by
  induction nodes with
  | nil => rfl
  | cons node nodes ih => rw [Node.numbersOfAll, ih, List.flatMap_cons]

namespace Document

/-! ## Failing -/

/-- Reading ends with an error. -/
def Fails {α : Type} (r : Except Error α) : Prop :=
  ∃ e, r = .error e

variable {α β : Type} {depth : Nat}

theorem Fails.bind {r : Except Error α} (h : Fails r) (f : α → Except Error β) :
    Fails (r >>= f) := by
  obtain ⟨e, rfl⟩ := h
  exact ⟨e, rfl⟩

theorem fails_bind {f : α → Except Error β} (r : Except Error α) (h : ∀ a, Fails (f a)) :
    Fails (r >>= f) := by
  cases r with
  | error e => exact ⟨e, rfl⟩
  | ok a => exact h a

theorem fails_opening {f : Nat → Except Error α} (h : ∀ d, depth = d + 1 → Fails (f d)) :
    Fails (opening depth f) := by
  cases depth with
  | zero => exact ⟨_, rfl⟩
  | succ d => exact h d rfl

/-! ## Nesting -/

theorem opening_eq {f : Nat → Except Error α} (h : 0 < depth) :
    opening depth f = f (depth - 1) := by
  cases depth with
  | zero => cases h
  | succ depth => rfl

theorem reloadValue_of_nesting_le {v : Value} (hx : ∀ x ∈ v.numbers, rereadNumber x = .ok x)
    (h : v.nesting ≤ depth) : reloadValue v depth = .ok v := by
  cases v with
  | unit => rfl
  | number x =>
    rw [reloadValue, opening_eq h, hx x (List.mem_singleton_self x)]
    rfl
  | boolean b => rw [reloadValue, opening_eq h]
  | string s => rw [reloadValue, opening_eq h]

theorem reloadAll_of_nesting_le {nodes : List Node}
    (hnodes : ∀ n ∈ nodes, n.nesting ≤ depth → reload n depth = .ok n)
    (h : Node.nestingOfAll nodes ≤ depth) : reloadAll nodes depth = .ok nodes := by
  induction nodes with
  | nil => rfl
  | cons n nodes ih =>
    rw [Node.nestingOfAll] at h
    rw [reloadAll, hnodes n (List.mem_cons_self ..) (by omega),
      ih (fun n hn => hnodes n (List.mem_cons_of_mem _ hn)) (by omega)]
    rfl

/-- Within the limit, a tree comes back if its numbers do. -/
theorem reload_of_nesting_le (n : Node) : ∀ {depth}, (∀ x ∈ n.numbers, rereadNumber x = .ok x) →
    n.nesting ≤ depth → reload n depth = .ok n := by
  induction n with
  | literal v =>
    intro depth hx h
    rw [Node.nesting] at h
    rw [reload, opening_eq (by omega), reloadValue_of_nesting_le hx (by omega)]
    rfl
  | print inner ih =>
    intro depth hx h
    rw [Node.nesting] at h
    rw [reload, opening_eq (by omega), ih hx (by omega)]
    rfl
  | binary op left right ihl ihr =>
    intro depth hx h
    rw [Node.nesting] at h
    rw [Node.numbers, List.forall_mem_append] at hx
    rw [reload, opening_eq (by omega), opening_eq (by omega), ihl hx.1 (by omega),
      ihr hx.2 (by omega)]
    rfl
  | ifThen test body iht ihb =>
    intro depth hx h
    rw [Node.nesting] at h
    rw [Node.numbers, List.forall_mem_append] at hx
    rw [reload, opening_eq (by omega), opening_eq (by omega), iht hx.1 (by omega),
      ihb hx.2 (by omega)]
    rfl
  | ifElse test body otherwise iht ihb iho =>
    intro depth hx h
    rw [Node.nesting] at h
    rw [Node.numbers, List.forall_mem_append, List.forall_mem_append] at hx
    rw [reload, opening_eq (by omega), opening_eq (by omega), iht hx.1.1 (by omega),
      ihb hx.1.2 (by omega), iho hx.2 (by omega)]
    rfl
  | whileLoop test body iht ihb =>
    intro depth hx h
    rw [Node.nesting] at h
    rw [Node.numbers, List.forall_mem_append] at hx
    rw [reload, opening_eq (by omega), opening_eq (by omega), iht hx.1 (by omega),
      ihb hx.2 (by omega)]
    rfl
  | block nodes ih =>
    intro depth hx h
    rw [Node.nesting] at h
    rw [Node.numbers, Node.numbersOfAll_eq_flatMap] at hx
    rw [reload, opening_eq (by omega), opening_eq (by omega),
      reloadAll_of_nesting_le (fun n hn => ih n hn fun x hmem =>
        hx x (List.mem_flatMap_of_mem hn hmem)) (by omega)]
    rfl
  | var name =>
    intro depth _ h
    rw [reload, opening_eq h]
  | identifier name =>
    intro depth _ h
    rw [reload, opening_eq h]
  | assign target value iht ihv =>
    intro depth hx h
    rw [Node.nesting] at h
    rw [Node.numbers, List.forall_mem_append] at hx
    rw [reload, opening_eq (by omega), opening_eq (by omega), iht hx.1 (by omega),
      ihv hx.2 (by omega)]
    rfl
  | inspect inner ih =>
    intro depth hx h
    rw [Node.nesting] at h
    rw [reload, opening_eq (by omega), ih hx (by omega)]
    rfl

theorem fails_reloadValue_of_lt {v : Value} (h : depth < v.nesting) :
    Fails (reloadValue v depth) := by
  cases v with
  | unit => cases h
  | number x => exact fails_opening fun d hd => absurd (hd ▸ h : d + 1 < 1) (by omega)
  | boolean b => exact fails_opening fun d hd => absurd (hd ▸ h : d + 1 < 1) (by omega)
  | string s => exact fails_opening fun d hd => absurd (hd ▸ h : d + 1 < 1) (by omega)

/-- A sequence of nodes fails with any one of them. -/
theorem fails_reloadAll {n : Node} (hfails : Fails (reload n depth)) :
    ∀ {nodes : List Node}, n ∈ nodes → Fails (reloadAll nodes depth)
  | m :: nodes, h => by
    rw [reloadAll]
    rcases List.mem_cons.1 h with rfl | h
    · exact hfails.bind _
    · exact fails_bind _ fun _ => (fails_reloadAll hfails h).bind _

theorem exists_of_lt_nestingOfAll : ∀ {nodes : List Node}, depth < Node.nestingOfAll nodes →
    ∃ n ∈ nodes, depth < n.nesting
  | [], h => by simp [Node.nestingOfAll] at h
  | n :: nodes, h => by
    rw [Node.nestingOfAll] at h
    rcases (by omega : depth < n.nesting ∨ depth < Node.nestingOfAll nodes) with h | h
    · exact ⟨n, List.mem_cons_self .., h⟩
    · obtain ⟨m, hm, h⟩ := exists_of_lt_nestingOfAll h
      exact ⟨m, List.mem_cons_of_mem _ hm, h⟩

/-- Two nodes inside two brackets fail with either of them. -/
theorem fails_both {left right : Node} {f : Node → Node → Node}
    (h : ∀ d, depth = d + 2 → Fails (reload left d) ∨ Fails (reload right d)) :
    Fails (opening depth fun depth => opening depth fun depth => do
      return f (← reload left depth) (← reload right depth)) := by
  refine fails_opening fun d₁ hd₁ => fails_opening fun d hd => ?_
  rcases h d (by omega) with h | h
  · exact h.bind _
  · exact fails_bind _ fun _ => h.bind _

/-- Beyond the limit, no tree comes back. -/
theorem fails_of_lt_nesting (n : Node) : ∀ {depth}, depth < n.nesting →
    Fails (reload n depth) := by
  induction n with
  | literal v =>
    intro depth h
    rw [Node.nesting] at h
    rw [reload]
    exact fails_opening fun d hd => (fails_reloadValue_of_lt (by omega)).bind _
  | print inner ih =>
    intro depth h
    rw [Node.nesting] at h
    rw [reload]
    exact fails_opening fun d hd => (ih (by omega)).bind _
  | binary op left right ihl ihr =>
    intro depth h
    rw [Node.nesting] at h
    rw [reload]
    refine fails_both fun d hd => ?_
    have hor : d < left.nesting ∨ d < right.nesting := by omega
    exact hor.imp ihl ihr
  | ifThen test body iht ihb =>
    intro depth h
    rw [Node.nesting] at h
    rw [reload]
    refine fails_both fun d hd => ?_
    have hor : d < test.nesting ∨ d < body.nesting := by omega
    exact hor.imp iht ihb
  | ifElse test body otherwise iht ihb iho =>
    intro depth h
    rw [Node.nesting] at h
    rw [reload]
    refine fails_opening fun d₁ hd₁ => fails_opening fun d hd => ?_
    have hor : d < test.nesting ∨ d < body.nesting ∨ d < otherwise.nesting := by omega
    rcases hor with h | h | h
    · exact (iht h).bind _
    · exact fails_bind _ fun _ => (ihb h).bind _
    · exact fails_bind _ fun _ => fails_bind _ fun _ => (iho h).bind _
  | whileLoop test body iht ihb =>
    intro depth h
    rw [Node.nesting] at h
    rw [reload]
    refine fails_both fun d hd => ?_
    have hor : d < test.nesting ∨ d < body.nesting := by omega
    exact hor.imp iht ihb
  | block nodes ih =>
    intro depth h
    rw [Node.nesting] at h
    rw [reload]
    refine fails_opening fun d₁ hd₁ => fails_opening fun d hd => ?_
    obtain ⟨n, hn, h⟩ := exists_of_lt_nestingOfAll (show d < Node.nestingOfAll nodes by omega)
    exact (fails_reloadAll (ih n hn h) hn).bind _
  | var name =>
    intro depth h
    rw [Node.nesting] at h
    rw [reload]
    exact fails_opening fun d hd => by omega
  | identifier name =>
    intro depth h
    rw [Node.nesting] at h
    rw [reload]
    exact fails_opening fun d hd => by omega
  | assign target value iht ihv =>
    intro depth h
    rw [Node.nesting] at h
    rw [reload]
    refine fails_both fun d hd => ?_
    have hor : d < target.nesting ∨ d < value.nesting := by omega
    exact hor.imp iht ihv
  | inspect inner ih =>
    intro depth h
    rw [Node.nesting] at h
    rw [reload]
    exact fails_opening fun d hd => (ih (by omega)).bind _

/-- A tree with a number that does not come back does not come back either. -/
theorem fails_of_number {x : Float} (hx : Fails (rereadNumber x)) (n : Node) :
    ∀ {depth}, x ∈ n.numbers → Fails (reload n depth) := by
  induction n with
  | literal v =>
    intro depth h
    rw [reload]
    refine fails_opening fun d _ => Fails.bind ?_ _
    cases v with
    | number y =>
      rw [List.mem_singleton.1 h] at hx
      obtain ⟨e, he⟩ := hx
      exact fails_opening fun _ _ => ⟨e, by rw [he]; rfl⟩
    | boolean b => cases h
    | string s => cases h
    | unit => cases h
  | print inner ih =>
    intro depth h
    rw [reload]
    exact fails_opening fun d _ => (ih h).bind _
  | binary op left right ihl ihr =>
    intro depth h
    rw [reload]
    exact fails_both fun d _ => (List.mem_append.1 h).imp ihl ihr
  | ifThen test body iht ihb =>
    intro depth h
    rw [reload]
    exact fails_both fun d _ => (List.mem_append.1 h).imp iht ihb
  | ifElse test body otherwise iht ihb iho =>
    intro depth h
    rw [reload]
    refine fails_opening fun _ _ => fails_opening fun d _ => ?_
    rcases List.mem_append.1 h with h | h
    · rcases List.mem_append.1 h with h | h
      · exact (iht h).bind _
      · exact fails_bind _ fun _ => (ihb h).bind _
    · exact fails_bind _ fun _ => fails_bind _ fun _ => (iho h).bind _
  | whileLoop test body iht ihb =>
    intro depth h
    rw [reload]
    exact fails_both fun d _ => (List.mem_append.1 h).imp iht ihb
  | block nodes ih =>
    intro depth h
    rw [reload]
    rw [Node.numbers, Node.numbersOfAll_eq_flatMap] at h
    obtain ⟨n, hn, h⟩ := List.mem_flatMap.1 h
    exact fails_opening fun _ _ => fails_opening fun d _ =>
      (fails_reloadAll (ih n hn h) hn).bind _
  | var name =>
    intro depth h
    cases h
  | identifier name =>
    intro depth h
    cases h
  | assign target value iht ihv =>
    intro depth h
    rw [reload]
    exact fails_both fun d _ => (List.mem_append.1 h).imp iht ihv
  | inspect inner ih =>
    intro depth h
    rw [reload]
    exact fails_opening fun d _ => (ih h).bind _

/-! ## Whole documents -/

theorem whole_eq {α : Type} {reader : Nat → Reader α} {text : String} {r : Except Error α}
    (h : reader ((bytes text).length + 1) (bytes text) = r.map (·, [])) :
    whole reader text.toUTF8 = r := by
  show (reader ((bytes text).length + 1) (bytes text) >>= fun p =>
    if (skipBlanks p.2).isEmpty then pure p.1 else throw .trailingCharacters) = r
  rw [h]
  cases r <;> rfl

theorem decode_encode (n : Node) : decode (encode n).toUTF8 = reload n nestingLimit := by
  refine whole_eq ?_
  have h := node_encode ((bytes (encode n)).length + 1) n nestingLimit [] (by simp)
  rwa [List.append_nil] at h

theorem decodeValue_encode (v : Value) :
    decodeValue (encodeValue v).toUTF8 = reloadValue v nestingLimit := by
  refine whole_eq ?_
  have h : value ((bytes (encodeValue v)).length + 1) nestingLimit (bytes (encodeValue v) ++ []) =
      (reloadValue v nestingLimit).map (·, []) := value_encode v (by simp)
  rwa [List.append_nil] at h

/-- A number comes back inside a tree if it does alone. -/
theorem rereadNumber_of_decodeValue {x : Float}
    (h : decodeValue (encodeValue (.number x)).toUTF8 = .ok (.number x)) :
    rereadNumber x = .ok x := by
  rw [decodeValue_encode] at h
  have hx : (rereadNumber x).map Value.number = .ok (.number x) := h
  cases hr : rereadNumber x with
  | error e =>
    rw [hr] at hx
    cases hx
  | ok y =>
    rw [hr] at hx
    cases hx
    rfl

theorem fails_rereadNumber {x : Float} (h : x.isFinite = false) : Fails (rereadNumber x) := by
  have hfield : x.toBits.toNat / Nat.pow 2 52 % Nat.pow 2 11 = 2047 := by
    refine Decidable.byContradiction fun hne => ?_
    rw [(Number.isFinite_iff x).2 hne] at h
    cases h
  have hshape : ∀ parts, Number.shape x ≠ .finite parts := by
    intro parts hparts
    unfold Number.shape at hparts
    dsimp only at hparts
    rw [if_pos hfield] at hparts
    split at hparts <;> cases hparts
  unfold rereadNumber
  split
  · rename_i parts hparts
    exact absurd hparts (hshape parts)
  · exact ⟨_, rfl⟩

end Document

theorem loadTree_encode_eq (n : Node) (journal : Journal) :
    (loadTree (Document.encode n).toUTF8 journal).1 =
      (Document.reload n Document.nestingLimit).mapError .malformed := by
  rw [← Document.decode_encode]
  rfl

/-- A tree whose numbers come back alone loads again, as it was, just if its document
nests at most 127 brackets. A tree with a number that is not finite does not. -/
theorem loadTree_encode (n : Node) (journal : Journal) :
    ((∀ x ∈ n.numbers, Document.decodeValue (Document.encodeValue (.number x)).toUTF8 =
        .ok (.number x)) →
      (n.nesting ≤ 127 → (loadTree (Document.encode n).toUTF8 journal).1 = .ok n) ∧
        (128 ≤ n.nesting →
          ∃ e, (loadTree (Document.encode n).toUTF8 journal).1 = .error (.malformed e))) ∧
      ((∃ x ∈ n.numbers, x.isFinite = false) →
        ∃ e, (loadTree (Document.encode n).toUTF8 journal).1 = .error (.malformed e)) := by
  have hload := loadTree_encode_eq n journal
  have hfails : Document.Fails (Document.reload n Document.nestingLimit) →
      ∃ e, (loadTree (Document.encode n).toUTF8 journal).1 = .error (.malformed e) := by
    rintro ⟨e, he⟩
    exact ⟨e, by rw [hload, he]; rfl⟩
  refine ⟨fun hx => ⟨fun hle => ?_, fun hlt => ?_⟩, ?_⟩
  · have hok : Document.reload n Document.nestingLimit = .ok n :=
      Document.reload_of_nesting_le n
        (fun x hmem => Document.rereadNumber_of_decodeValue (hx x hmem)) hle
    rw [hload, hok]
    rfl
  · exact hfails (Document.fails_of_lt_nesting n hlt)
  · rintro ⟨x, hmem, hfinite⟩
    exact hfails (Document.fails_of_number (Document.fails_rereadNumber hfinite) n hmem)

/-- Nested prints of a half, one bracket within the limit and one beyond it, and a number
that is not finite. -/
theorem loadTree_encode_at_limit :
    let half : Node := .literal (.number 0.5)
    let within : Node := Nat.repeat Node.print 124 (.ifThen (.identifier "\"é\n😀") (.var "\x01"))
    let most : Node := Nat.repeat Node.print 125 half
    let beyond : Node := Nat.repeat Node.print 126 half
    let undefined : Node := .print (.literal (.number (0.0 / 0.0)))
    within.nesting = 127 ∧ (loadTree (Document.encode within).toUTF8 .off).1 = .ok within ∧
      most.nesting = 127 ∧ (loadTree (Document.encode most).toUTF8 .off).1 = .ok most ∧
      beyond.nesting = 128 ∧
      (∃ e, (loadTree (Document.encode beyond).toUTF8 .off).1 = .error (.malformed e)) ∧
      ∃ e, (loadTree (Document.encode undefined).toUTF8 .off).1 = .error (.malformed e) := by
  intro half within most beyond undefined
  have hhalf : Document.decodeValue (Document.encodeValue (.number 0.5)).toUTF8 =
      .ok (.number 0.5) := by
    have hread : (Document.rereadNumber 0.5).toOption = some 0.5 := by decide +kernel
    rw [Document.decodeValue_encode]
    show (Document.rereadNumber 0.5).map Value.number = _
    cases hr : Document.rereadNumber 0.5 with
    | error e =>
      rw [hr] at hread
      cases hread
    | ok x =>
      rw [hr] at hread
      cases hread
      rfl
  have hnumbers : ∀ x ∈ [(0.5 : Float)], Document.decodeValue
      (Document.encodeValue (.number x)).toUTF8 = .ok (.number x) := by
    intro x hx
    rw [List.mem_singleton.1 hx]
    exact hhalf
  refine ⟨by decide +kernel, ((loadTree_encode within .off).1 nofun).1 (by decide +kernel),
    by decide +kernel, ((loadTree_encode most .off).1 hnumbers).1 (by decide +kernel),
    by decide +kernel, ((loadTree_encode beyond .off).1 hnumbers).2 (by decide +kernel),
    (loadTree_encode undefined .off).2 ⟨0.0 / 0.0, ?_, by decide +kernel⟩⟩
  exact List.mem_singleton_self _

end TreeScript
