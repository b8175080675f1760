import TreeScript.Loading
import TreeScript.Proofs.Document.Canonical
import TreeScript.Proofs.Document.Members
import TreeScript.Proofs.Document.Stored

/-!
# Any layout loads

A tree that loads from its document loads from every other layout of it, to the same tree
(`loadTree_layout`). By induction on the tree, a node is read from any of its layouts as the
tree that `reload` gives (`reads_node`), and `reload` gives what the document that is written
is read as (`decode_encode`). That document is a layout like the others
(`Node.exists_layout_encode`).
-/

namespace TreeScript

namespace Document

variable {bound depth : Nat} {ts : List Token} {s : List UInt8}

/-- A node in the layouts where no more brackets are open than may be. -/
def ReadsLayouts (bound depth : Nat) (n : Node) : Prop :=
  ∀ t, reload n depth = .ok t → ∀ j, n.Layout j → j.nesting ≤ depth →
    Reads bound j.tokens (node bound depth) t

/-! ## Variants -/

theorem reads_tagged {k : Node.Kind} {layout : Json → Prop} {j : Json} {t : Node}
    {r : Nat → Except Error Node} (hj : Tagged k.name layout j) (hr : opening depth r = .ok t)
    (hnesting : j.nesting ≤ depth) (hcontent : ∀ d c, layout c → r d = .ok t → c.nesting ≤ d →
      Reads bound c.tokens (nodeContent bound d (node bound d) (innerNode bound d) k) t) :
    Reads bound j.tokens (node bound depth) t := by
  obtain ⟨d, rfl, hr⟩ := opening_eq_ok hr
  rw [node_succ]
  exact reads_variant_tagged (choose_kind k) hj fun c hc hle => hcontent d c hc hr (by omega)

/-- A node with parts. -/
theorem reads_compound (compound : Compound) {layout : Json → Prop} {j : Json} {t : Node}
    {r : Nat → Except Error Node} (hj : Tagged compound.kind.name layout j)
    (hr : (opening depth fun depth => opening depth r) = .ok t) (hnesting : j.nesting ≤ depth)
    (hparts : ∀ d c, layout c → r d = .ok t → c.nesting ≤ d + 1 →
      Reads bound c.tokens (parts bound d (some (node bound d)) compound) t) :
    Reads bound j.tokens (node bound depth) t := by
  refine reads_tagged hj hr hnesting fun d c hc hr hle => ?_
  obtain ⟨d, rfl, hr⟩ := opening_eq_ok hr
  have hcontent : nodeContent bound (d + 1) (node bound (d + 1)) (innerNode bound (d + 1))
      compound.kind = parts bound d (some (node bound d)) compound := by
    cases compound <;> rfl
  rw [hcontent]
  exact hparts d c hc hr hle

/-! ## Sequences -/

theorem length_items_le (items : List Json) : ∀ isFirst,
    items.length ≤ (Json.itemTokens isFirst items).length := by
  induction items with
  | nil => exact fun _ => Nat.zero_le _
  | cons j items ih =>
    intro isFirst
    have h := ih false
    obtain ⟨t, ts, hj, -⟩ := j.exists_tokens
    simp only [Json.itemTokens, hj, List.length_append, List.length_cons]
    omega

theorem reads_items : ∀ {nodes nodes' : List Node} {js : List Json},
    (∀ n ∈ nodes, ReadsLayouts bound depth n) → Node.LayoutAll nodes js →
    reloadAll nodes depth = .ok nodes' → Json.nestingOfItems js ≤ depth →
    ∀ (isFirst : Bool) (steps : Nat), js.length < steps →
      Reads bound (Json.itemTokens isFirst js) (items (node bound depth) steps isFirst) nodes'
  | [], _, [], _, _, hreload, _, isFirst, steps, hsteps => by
    intro ts s _ hs
    cases hreload
    obtain ⟨steps, rfl⟩ := Nat.exists_eq_add_one_of_ne_zero (Nat.ne_zero_of_lt hsteps)
    obtain ⟨s₁, hmore, hs₁⟩ := Rest.noMoreItems isFirst hs
    obtain ⟨s', hend, hs'⟩ := hs₁.endOfList
    refine ⟨s', ?_, hs'⟩
    rw [items, hmore]
    show (endOfList s₁ >>= fun s => pure ([], s)) = _
    rw [hend]
    rfl
  | n :: nodes, _, j :: js, hnodes, hj, hreload, hnesting, isFirst, steps, hsteps => by
    intro ts s hts hs
    obtain ⟨t, ht, hreload⟩ := exists_of_bind_eq_ok hreload
    obtain ⟨nodes', hnodes', hreload⟩ := exists_of_bind_eq_ok hreload
    cases hreload
    rw [Json.nestingOfItems] at hnesting
    obtain ⟨steps, rfl⟩ := Nat.exists_eq_add_one_of_ne_zero (Nat.ne_zero_of_lt hsteps)
    have hitem : Rest bound
        (separator isFirst ++ (j.tokens ++ (Json.itemTokens false js ++ ts))) s := by
      simpa [Json.itemTokens] using hs
    obtain ⟨s₁, hmore, hs₁⟩ := hitem.moreItems
    obtain ⟨s₂, hnode, hs₂⟩ := hnodes n (List.mem_cons_self ..) t ht j hj.1 (by omega) _ s₁
      (delimited_itemTokens js ts) hs₁
    obtain ⟨s', hrest, hs'⟩ := reads_items (fun n hn => hnodes n (List.mem_cons_of_mem _ hn)) hj.2
      hnodes' (by omega) false steps (Nat.lt_of_succ_lt_succ hsteps) ts s₂ hts hs₂
    refine ⟨s', ?_, hs'⟩
    rw [items, hmore]
    show (node bound depth s₁ >>= fun p =>
      items (node bound depth) steps false p.2 >>= fun q => pure (p.1 :: q.1, q.2)) = _
    rw [hnode]
    show (items (node bound depth) steps false s₂ >>= fun q => pure (t :: q.1, q.2)) = _
    rw [hrest]
    rfl

/-- A sequence opens a bracket for its nodes. -/
theorem reads_sequence {nodes nodes' : List Node} {js : List Json}
    (hnodes : ∀ n ∈ nodes, ReadsLayouts bound depth n) (hj : Node.LayoutAll nodes js)
    (hreload : reloadAll nodes depth = .ok nodes') (hnesting : Json.nestingOfItems js ≤ depth) :
    Reads bound (Json.list js).tokens (sequence bound (some (node bound depth))) nodes' := by
  intro ts s hts hs
  obtain ⟨s₁, hskip, hs₁⟩ := Rest.symbol hs
  obtain ⟨s', hread, hs'⟩ := reads_items hnodes hj hreload hnesting true bound
    (Rest.lt_of_le_length hs₁ (length_items_le js true)) ts s₁ hts hs₁
  refine ⟨s', ?_, hs'⟩
  unfold sequence
  rw [hskip]
  exact hread

/-! ## All nodes -/

theorem reads_node (bound : Nat) (n : Node) : ∀ depth, ReadsLayouts bound depth n := by
  induction n with
  | literal v =>
    intro depth t ht j hj hnesting
    refine reads_tagged (k := .literal) hj ht hnesting fun d c hc hr hle => ?_
    obtain ⟨w, hw, hr⟩ := exists_of_bind_eq_ok hr
    cases hr
    exact (reads_value hc hw hle).map Node.literal
  | print inner ih =>
    intro depth t ht j hj hnesting
    refine reads_tagged (k := .print) hj ht hnesting fun d c hc hr hle => ?_
    obtain ⟨n, hn, hr⟩ := exists_of_bind_eq_ok hr
    cases hr
    exact (ih d n hn c hc hle).map Node.print
  | binary op left right ihl ihr =>
    intro depth t ht j hj hnesting
    refine reads_compound .binary hj ht hnesting fun d c hc hr hle => ?_
    obtain ⟨l, hl, hr⟩ := exists_of_bind_eq_ok hr
    obtain ⟨r, hright, ht⟩ := exists_of_bind_eq_ok hr
    cases ht
    refine reads_parts ⟨[], some op, [("left", l), ("right", r)]⟩ hc hle (.inl rfl) rfl ?_
      ⟨by simp, by simp⟩ rfl
    simp only [List.forall_mem_cons]
    exact ⟨reads_operatorPart rfl rfl, reads_nodePart (by decide) rfl (ihl d l hl),
      reads_nodePart (by decide) rfl (ihr d r hright), nofun⟩
  | ifThen test body iht ihb =>
    intro depth t ht j hj hnesting
    refine reads_compound .conditional hj ht hnesting fun d c hc hr hle => ?_
    obtain ⟨a, ha, hr⟩ := exists_of_bind_eq_ok hr
    obtain ⟨b, hb, ht⟩ := exists_of_bind_eq_ok hr
    cases ht
    -- The part that is absent can be left out or be null.
    rcases hc with hc | hc
    · refine reads_parts ⟨[], none, [("condition", a), ("body", b)]⟩ hc hle (.inr rfl) rfl ?_
        ⟨.inr rfl, by simp⟩ rfl
      simp only [List.forall_mem_cons]
      exact ⟨reads_nodePart (by decide) rfl (iht d a ha),
        reads_nodePart (by decide) rfl (ihb d b hb), nofun⟩
    · refine reads_parts ⟨[], none, [("condition", a), ("body", b)]⟩ hc hle (.inl rfl) rfl ?_
        ⟨.inr rfl, by simp⟩ rfl
      simp only [List.forall_mem_cons]
      exact ⟨reads_nodePart (by decide) rfl (iht d a ha),
        reads_nodePart (by decide) rfl (ihb d b hb), reads_nullPart rfl, nofun⟩
  | ifElse test body otherwise iht ihb iho =>
    intro depth t ht j hj hnesting
    refine reads_compound .conditional hj ht hnesting fun d c hc hr hle => ?_
    obtain ⟨a, ha, hr⟩ := exists_of_bind_eq_ok hr
    obtain ⟨b, hb, hr⟩ := exists_of_bind_eq_ok hr
    obtain ⟨o, ho, ht⟩ := exists_of_bind_eq_ok hr
    cases ht
    refine reads_parts ⟨[], none, [("condition", a), ("body", b), ("else_body", o)]⟩ hc hle
      (.inl rfl) rfl ?_ ⟨.inr rfl, by simp⟩ rfl
    simp only [List.forall_mem_cons]
    exact ⟨reads_nodePart (by decide) rfl (iht d a ha),
      reads_nodePart (by decide) rfl (ihb d b hb),
      reads_nodePart (by decide) rfl (iho d o ho), nofun⟩
  | whileLoop test body iht ihb =>
    intro depth t ht j hj hnesting
    refine reads_compound .whileLoop hj ht hnesting fun d c hc hr hle => ?_
    obtain ⟨a, ha, hr⟩ := exists_of_bind_eq_ok hr
    obtain ⟨b, hb, ht⟩ := exists_of_bind_eq_ok hr
    cases ht
    refine reads_parts ⟨[], none, [("condition", a), ("body", b)]⟩ hc hle (.inl rfl) rfl ?_
      ⟨.inr rfl, by simp⟩ rfl
    simp only [List.forall_mem_cons]
    exact ⟨reads_nodePart (by decide) rfl (iht d a ha),
      reads_nodePart (by decide) rfl (ihb d b hb), nofun⟩
  | block nodes ih =>
    intro depth t ht j hj hnesting
    refine reads_tagged (k := .block) hj ht hnesting fun d c hc hr hle => ?_
    obtain ⟨d, rfl, hr⟩ := opening_eq_ok hr
    obtain ⟨nodes', hnodes', hr⟩ := exists_of_bind_eq_ok hr
    cases hr
    obtain ⟨js, rfl, hjs⟩ := hc
    rw [Json.nesting] at hle
    exact (reads_sequence (fun n hn => ih n hn d) hjs hnodes' (by omega)).map Node.block
  | var name =>
    intro depth t ht j hj hnesting
    refine reads_tagged (k := .var) hj ht hnesting fun d c hc hr hle => ?_
    cases hr
    obtain ⟨ps, hps, rfl⟩ := hc
    exact (reads_string hps).map Node.var
  | identifier name =>
    intro depth t ht j hj hnesting
    refine reads_tagged (k := .identifier) hj ht hnesting fun d c hc hr hle => ?_
    cases hr
    obtain ⟨ps, hps, rfl⟩ := hc
    exact (reads_string hps).map Node.identifier
  | assign target value iht ihv =>
    intro depth t ht j hj hnesting
    refine reads_compound .assign hj ht hnesting fun d c hc hr hle => ?_
    obtain ⟨a, ha, hr⟩ := exists_of_bind_eq_ok hr
    obtain ⟨b, hb, ht⟩ := exists_of_bind_eq_ok hr
    cases ht
    refine reads_parts ⟨[], none, [("target", a), ("value", b)]⟩ hc hle (.inl rfl) rfl ?_
      ⟨.inr rfl, by simp⟩ rfl
    simp only [List.forall_mem_cons]
    exact ⟨reads_nodePart (by decide) rfl (iht d a ha),
      reads_nodePart (by decide) rfl (ihv d b hb), nofun⟩
  | inspect inner ih =>
    intro depth t ht j hj hnesting
    refine reads_tagged (k := .inspect) hj ht hnesting fun d c hc hr hle => ?_
    obtain ⟨n, hn, hr⟩ := exists_of_bind_eq_ok hr
    cases hr
    exact (ih d n hn c hc hle).map Node.inspect

/-! ## Whole documents -/

theorem whole_of_reads {α : Type} {reader : Nat → Reader α} {tokens : List Token} {a : α}
    {cs : List Char} (hcs : Spread tokens cs)
    (h : ∀ bound, Reads bound tokens (reader bound) a) :
    whole reader (String.ofList cs).toUTF8 = .ok a := by
  have hbytes : (String.ofList cs).toUTF8.data.toList = encoded cs := by
    have hlist := bytes_eq_encoded (String.ofList cs)
    rwa [String.toList_ofList] at hlist
  have hrest : Rest ((encoded cs).length + 1) (tokens ++ []) (encoded cs) :=
    ⟨Nat.lt_succ_self _, cs, by rwa [List.append_nil], rfl⟩
  obtain ⟨s', hread, hs'⟩ := h _ [] _ nofun hrest
  unfold whole
  rw [hbytes]
  show (reader ((encoded cs).length + 1) (encoded cs) >>= fun p =>
    if (skipBlanks p.2).isEmpty then pure p.1 else throw .trailingCharacters) = _
  rw [hread]
  show (if (skipBlanks s').isEmpty then pure a else throw .trailingCharacters :
    Except Error α) = _
  rw [hs'.nil]
  rfl

end Document

open Document

/-- What is written for a tree is one of its layouts, and nests as deep as the tree. -/
theorem Node.exists_layout_encode {n : Node} (hfinite : ∀ x ∈ n.numbers, x.isFinite) :
    ∃ j, n.Layout j ∧ j.nesting = n.nesting ∧ Spread j.tokens (encode n).toList :=
  ⟨n.json, n.layout_json hfinite, n.nesting_json, spread_encode n⟩

/-- A document that lays out a tree in another way, and nests at most 127 brackets, loads to
the same tree as what is written for it. -/
theorem loadTree_layout {n t : Node} {j : Json} {cs : List Char} {journal journal' : Journal}
    (hload : (loadTree (encode n).toUTF8 journal).1 = .ok t) (hlayout : n.Layout j)
    (hnesting : j.nesting ≤ 127) (hspread : Spread j.tokens cs) :
    (loadTree (String.ofList cs).toUTF8 journal').1 = .ok t := by
  rw [loadTree_encode_eq] at hload
  have hreload : reload n nestingLimit = .ok t := eq_ok_of_mapError_eq_ok hload
  have hdecode : decode (String.ofList cs).toUTF8 = .ok t :=
    whole_of_reads hspread fun bound =>
      reads_node bound n nestingLimit t hreload j hlayout hnesting
  show (decode (String.ofList cs).toUTF8).mapError LoadError.malformed = .ok t
  rw [hdecode]
  rfl

/-- A condition with its parts in another order, another member between them, an operator and
a unit with their null, escapes for all characters of a string, and an assignment in a list. -/
theorem loadTree_layout_mixed :
    let left : Node := .literal (.string "é😀")
    let unit : Node := .literal .unit
    let target : Node := .identifier "x"
    let half : Node := .literal (.number 0.5)
    let n : Node := .ifThen (.binary .equal left unit) (.assign target half)
    let escapes : List Piece := [.unit ⟨⟨0, false⟩, ⟨0, false⟩, ⟨14, true⟩, ⟨9, false⟩⟩,
      .unit ⟨⟨13, false⟩, ⟨8, false⟩, ⟨3, false⟩, ⟨13, false⟩⟩,
      .unit ⟨⟨13, false⟩, ⟨14, false⟩, ⟨0, false⟩, ⟨0, false⟩⟩]
    let condition : Json := .tag "BinaryOperator" <| .object
      [keyed "right" (.tag "Literal" (.tag "Unit" .null)), keyed "op" (.tag "Equal" .null),
        keyed "left" (.tag "Literal" (.tag "String" (.string escapes)))]
    let body : Json := .tag "Assign" <| .list [target.json, half.json]
    let j : Json := .tag "If" <| .object [keyed "body" body,
      keyed "left" (.list [.object [keyed "" .null], .boolean true]),
      keyed "else_body" .null, keyed "condition" condition]
    let text := String.ofList (j.tokens.flatMap ([' ', '\n', '\t'] ++ Token.chars ·) ++ ['\r'])
    (loadTree (encode n).toUTF8 .off).1 = .ok n ∧ j.nesting = 6 ∧
      (loadTree text.toUTF8 .off).1 = .ok n := by
  intro left unit target half n escapes condition body j text
  have hload : (loadTree (encode n).toUTF8 .off).1 = .ok n := by
    have hhalf : rereadNumber 0.5 = .ok 0.5 := eq_ok_of_toOption (by decide +kernel)
    have hreload : reload n nestingLimit = .ok n :=
      reload_of_nesting_le n (List.forall_mem_singleton.2 hhalf) (by decide)
    rw [loadTree_encode_eq, hreload]
    rfl
  have hcondition : (Node.binary .equal left unit).Layout condition := by
    have horder : List.Perm [("right", unit.Layout), ("op", Operator.equal.Layout),
        ("left", left.Layout)]
        [("op", Operator.equal.Layout), ("left", left.Layout), ("right", unit.Layout)] :=
      .trans (.swap _ _ _) (.cons _ (.swap _ _ _))
    have hescapes : Denotes escapes "é😀".toList :=
      .unit (by decide) (.pair (by decide) (by decide) (by decide) .nil)
    refine tagged_tag (.object horder <| .part (denotes_written _) ?_ <|
      .part (denotes_written _) ?_ <| .part (denotes_written _) ?_ .nil)
    · exact tagged_tag (.inr (tagged_tag rfl))
    · exact .inr (tagged_tag rfl)
    · exact tagged_tag (tagged_tag ⟨_, hescapes, rfl⟩)
  have hbody : (Node.assign target half).Layout body := by
    have hfinite : ∀ x ∈ half.numbers, x.isFinite :=
      List.forall_mem_singleton.2 (by decide +kernel)
    exact tagged_tag (.list (.cons (target.layout_json nofun)
      (.cons (half.layout_json hfinite) .nil)))
  have hj : n.Layout j := by
    have horder : List.Perm [("body", (Node.assign target half).Layout),
        ("else_body", (· = .null)), ("condition", (Node.binary .equal left unit).Layout)]
        [("condition", (Node.binary .equal left unit).Layout),
          ("body", (Node.assign target half).Layout), ("else_body", (· = .null))] :=
      .trans (.cons _ (.swap _ _ _)) (.swap _ _ _)
    exact tagged_tag (.inr (.object horder <| .part (denotes_written _) hbody <|
      .other _ (denotes_written "left".toList) (by decide) <| .part (denotes_written _) rfl <|
        .part (denotes_written _) hcondition .nil))
  have hnesting : j.nesting = 6 := by decide
  exact ⟨hload, hnesting, loadTree_layout hload hj (by omega)
    (spread_spaced [' ', '\n', '\t'] ['\r'] (by simp) (by simp) j.tokens)⟩

end TreeScript
