import TreeScript.Proofs.Document.Reading

/-!
# Parts in any order

The parts of a node may come in any order and with other members between them, or in a
list. What the reader has gathered in the end is the same up to the order (`Members.take`),
and `Members.assemble` does not look at the order. So a node with parts is read from any
layout of them (`reads_parts`), if each of its parts is (`Part.Reads`).
-/

namespace TreeScript.Document

variable {bound depth : Nat} {ts : List Token} {s : List UInt8}

/-! ## Gathering parts -/

namespace Members

/-- Adds one of all parts to those that have been read so far. -/
def take (all m : Members) (name : String) : Members where
  seen := name :: m.seen
  operator := if name = "op" then all.operator else m.operator
  nodes := match all.nodes.lookup name with
    | some n => (name, n) :: m.nodes
    | none => m.nodes

variable {all : Members} {names : List String}

theorem operator_takes (all : Members) (names : List String) (m : Members) :
    (names.foldl all.take m).operator = if "op" ∈ names then all.operator else m.operator := by
  induction names generalizing m with
  | nil => rfl
  | cons name names ih =>
    rw [List.foldl_cons, ih]
    by_cases hmem : "op" ∈ names
    · rw [if_pos hmem, if_pos (List.mem_cons_of_mem _ hmem)]
    · by_cases hname : name = "op" <;> simp [take, hmem, hname, eq_comm]

theorem lookup_take (all m : Members) (name x : String) : (all.take m name).nodes.lookup x =
    if x = name then (all.nodes.lookup x).or (m.nodes.lookup x) else m.nodes.lookup x := by
  unfold take
  by_cases hx : x = name
  · subst hx
    cases all.nodes.lookup x <;> simp
  · cases all.nodes.lookup name <;> simp [hx, List.lookup_cons, beq_eq_false_iff_ne.2 hx]

theorem lookup_takes (all : Members) (names : List String) (m : Members) (x : String) :
    (names.foldl all.take m).nodes.lookup x =
      if x ∈ names then (all.nodes.lookup x).or (m.nodes.lookup x) else m.nodes.lookup x := by
  induction names generalizing m with
  | nil => rfl
  | cons name names ih =>
    rw [List.foldl_cons, ih, lookup_take]
    by_cases hx : x = name <;> by_cases hmem : x ∈ names <;>
      cases all.nodes.lookup x <;> simp [hx, hmem]

/-- The order of the parts does not matter. -/
theorem assemble_congr {m m' : Members} (hop : m.operator = m'.operator)
    (hnodes : ∀ x, m.nodes.lookup x = m'.nodes.lookup x) (compound : Compound) :
    m.assemble compound = m'.assemble compound := by
  have hnode (x : String) : m.node x = m'.node x := by
    unfold Members.node
    rw [hnodes]
  cases compound <;> simp only [assemble, hop, hnode, hnodes]

/-- No part has another name. -/
structure Within (all : Members) (names : List String) : Prop where
  operator : "op" ∈ names ∨ all.operator = none
  nodes : ∀ p ∈ all.nodes, p.1 ∈ names

theorem Within.of_perm {names' : List String} (h : all.Within names) (hperm : names'.Perm names) :
    all.Within names' :=
  ⟨h.operator.imp_left hperm.mem_iff.2, fun p hp => hperm.mem_iff.2 (h.nodes p hp)⟩

theorem Within.assemble_takes (h : all.Within names) (compound : Compound) :
    (names.foldl all.take .empty).assemble compound = all.assemble compound := by
  refine assemble_congr ?_ (fun x => ?_) compound
  · rw [operator_takes]
    split
    · rfl
    · rename_i hmem
      exact (h.operator.resolve_left hmem).symm
  · rw [lookup_takes]
    split
    · exact Option.or_none
    · rename_i hmem
      refine (List.lookup_eq_none_iff.2 fun p hp => ?_).symm
      rw [bne_iff_ne]
      rintro rfl
      exact hmem (h.nodes p hp)

end Members

/-! ## One part -/

/-- Each layout of a part is read as the part that is expected. -/
def Part.Reads (bound depth : Nat) (child : Reader Node) (all : Members) (p : Part) : Prop :=
  ∀ (m : Members) (j : Json), p.2 j → j.nesting ≤ depth →
    Document.Reads bound j.tokens (m.read bound depth child p.1) (all.take m p.1)

variable {child : Reader Node} {all : Members} {compound : Compound}

theorem reads_operatorPart {op : Operator} (hop : all.operator = some op)
    (hnodes : all.nodes.lookup "op" = none) :
    Part.Reads bound depth child all ("op", op.Layout) := by
  intro m j hj hnesting
  have htake : all.take m "op" = ⟨"op" :: m.seen, some op, m.nodes⟩ := by
    unfold Members.take
    rw [hnodes, hop, if_pos rfl]
  rw [htake]
  exact (reads_operator hj hnesting).map fun op => Members.mk ("op" :: m.seen) (some op) m.nodes

/-- An absent part. -/
theorem reads_nullPart (hnodes : all.nodes.lookup "else_body" = none) :
    Part.Reads bound depth child all ("else_body", (· = .null)) := by
  rintro m j rfl - ts s - hs
  obtain ⟨s₁, s', hskip, hword, hs'⟩ := Rest.null hs
  refine ⟨s', ?_, hs'⟩
  have htake : all.take m "else_body" = ⟨"else_body" :: m.seen, m.operator, m.nodes⟩ := by
    unfold Members.take
    rw [hnodes, if_neg (by decide)]
  rw [htake]
  unfold Members.read
  rw [if_neg (by decide), if_pos rfl, hskip]
  show (word restOfNull s₁ >>= fun s => pure (_, s)) = _
  rw [hword]
  rfl

/-- The document of a node is an object in any layout. -/
theorem exists_object_of_layout {n : Node} {j : Json} (hj : n.Layout j) :
    ∃ members, j = .object members := by
  cases n <;> (obtain ⟨key, c, -, -, rfl⟩ := hj; exact ⟨_, rfl⟩)

theorem reads_nodePart {name : String} {n t : Node} (hname : name ≠ "op")
    (hnodes : all.nodes.lookup name = some t)
    (hchild : ∀ j, n.Layout j → j.nesting ≤ depth → Reads bound j.tokens child t) :
    Part.Reads bound depth child all (name, n.Layout) := by
  intro m j hj hnesting ts s hts hs
  obtain ⟨members, rfl⟩ := exists_object_of_layout hj
  obtain ⟨w, hskip, -⟩ := Rest.symbol hs
  have htake : all.take m name = ⟨name :: m.seen, m.operator, (name, t) :: m.nodes⟩ := by
    unfold Members.take
    rw [hnodes, if_neg hname]
  -- For a part that may be absent the reader has looked at what follows the blanks.
  obtain ⟨s₀, hread, hs₀⟩ : ∃ s₀, m.read bound depth child name s = (child s₀ >>= fun p =>
      pure (Members.mk (name :: m.seen) m.operator ((name, p.1) :: m.nodes), p.2)) ∧
        Rest bound ((Json.object members).tokens ++ ts) s₀ := by
    unfold Members.read
    rw [if_neg hname]
    split
    · exact ⟨skipBlanks s, by rw [hskip]; rfl, hs.skipBlanks⟩
    · exact ⟨s, rfl, hs⟩
  obtain ⟨s', hnode, hs'⟩ := hchild _ hj hnesting ts s₀ hts hs₀
  refine ⟨s', ?_, hs'⟩
  rw [hread, hnode, htake]
  rfl

/-! ## All parts -/

theorem length_members_le (members : List (List Piece × Json)) : ∀ isFirst,
    members.length ≤ (Json.memberTokens isFirst members).length := by
  induction members with
  | nil => exact fun _ => Nat.zero_le _
  | cons member members ih =>
    intro isFirst
    have h := ih false
    obtain ⟨key, j⟩ := member
    simp only [Json.memberTokens, List.length_append, List.length_cons]
    omega

theorem Compound.fields_nodup (compound : Compound) : compound.fields.Nodup := by
  cases compound <;> decide

/-- The key of a member and its colon. -/
theorem Rest.member {isFirst : Bool} {key : List Piece} {name : String} {j : Json}
    {members : List (List Piece × Json)}
    (h : Rest bound (Json.memberTokens isFirst ((key, j) :: members) ++ ts) s)
    (hname : Denotes key name.toList) : ∃ s₁ s₂, nextKey bound isFirst s = .ok (some name, s₁) ∧
      Document.colon s₁ = .ok s₂ ∧
        Rest bound (j.tokens ++ (Json.memberTokens false members ++ ts)) s₂ := by
  have hsplit : Rest bound ((separator isFirst ++ [.string key]) ++ .symbol .colon ::
      (j.tokens ++ (Json.memberTokens false members ++ ts))) s := by
    simpa [Json.memberTokens] using h
  obtain ⟨s₁, hkey, hs₁⟩ := reads_key isFirst hname _ s (.symbol _ _) hsplit
  obtain ⟨s₂, hcolon, hs₂⟩ := hs₁.colon
  exact ⟨s₁, s₂, hkey, hcolon, hs₂⟩

/-- The parts in an object. -/
theorem reads_objectMembers {ps : List Part} {members : List (List Piece × Json)}
    (h : Mixed compound.fields ps members)
    (hps : ∀ p ∈ ps, p.Reads bound depth child all ∧ p.1 ∈ compound.fields) :
    ∀ (isFirst : Bool) (steps : Nat) (m : Members), (ps.map Prod.fst ++ m.seen).Nodup →
      Json.nestingOfMembers members ≤ depth → members.length < steps →
        Reads bound (Json.memberTokens isFirst members)
          (objectMembers bound depth child compound steps isFirst m)
          ((ps.map Prod.fst).foldl all.take m) := by
  induction h with
  | nil =>
    intro isFirst steps m _ _ hsteps ts s hts hs
    obtain ⟨steps, rfl⟩ := Nat.exists_eq_add_one_of_ne_zero (Nat.ne_zero_of_lt hsteps)
    obtain ⟨s', hkey, hs'⟩ := reads_objectEnd isFirst ts s hts hs
    refine ⟨s', ?_, hs'⟩
    rw [objectMembers, hkey]
    rfl
  | @part ps members p key j hkey hj _ ih =>
    intro isFirst steps m hnodup hnesting hsteps ts s hts hs
    obtain ⟨steps, rfl⟩ := Nat.exists_eq_add_one_of_ne_zero (Nat.ne_zero_of_lt hsteps)
    obtain ⟨hread, hfield⟩ := hps p (List.mem_cons_self ..)
    rw [List.map_cons, List.cons_append] at hnodup
    have hseen : p.1 ∉ m.seen := fun hmem =>
      (List.nodup_cons.1 hnodup).1 (List.mem_append_right _ hmem)
    rw [Json.nestingOfMembers] at hnesting
    obtain ⟨s₁, s₂, hkey', hcolon, hs₂⟩ := hs.member hkey
    obtain ⟨s₃, hpart, hs₃⟩ := hread m j hj (by omega) _ s₂ (delimited_memberTokens members ts) hs₂
    obtain ⟨s', hrest, hs'⟩ := ih (fun p hp => hps p (List.mem_cons_of_mem _ hp)) false steps
      (all.take m p.1) (List.perm_middle.nodup_iff.2 hnodup) (by omega)
      (Nat.lt_of_succ_lt_succ hsteps) ts s₃ hts hs₃
    refine ⟨s', ?_, hs'⟩
    rw [objectMembers, hkey']
    show (if p.1 ∈ compound.fields then _ else _ : Except Error (Members × List UInt8)) = _
    rw [if_pos hfield, if_neg hseen, hcolon]
    show (m.read bound depth child p.1 s₂ >>= _) = _
    rw [hpart]
    exact hrest
  | @other ps members name key j hkey hname _ ih =>
    intro isFirst steps m hnodup hnesting hsteps ts s hts hs
    obtain ⟨steps, rfl⟩ := Nat.exists_eq_add_one_of_ne_zero (Nat.ne_zero_of_lt hsteps)
    rw [Json.nestingOfMembers] at hnesting
    obtain ⟨s₁, s₂, hkey', hcolon, hs₂⟩ := hs.member hkey
    obtain ⟨s₃, hskip, hs₃⟩ := skipValue_tokens (delimited_memberTokens members ts) hs₂
    obtain ⟨s', hrest, hs'⟩ := ih hps false steps m hnodup (by omega)
      (Nat.lt_of_succ_lt_succ hsteps) ts s₃ hts hs₃
    refine ⟨s', ?_, hs'⟩
    rw [objectMembers, hkey']
    show (if name ∈ compound.fields then _ else _ : Except Error (Members × List UInt8)) = _
    rw [if_neg hname, hcolon]
    show (skipValue bound s₂ >>= _) = _
    rw [hskip]
    exact hrest

/-- The parts in a list, from which one that may be absent can be left out. -/
theorem reads_listMembers {ps : List Part} {items : List Json} {rest : List String}
    (h : List.Forall₂ Prod.snd ps items) (hrest : rest = [] ∨ rest = ["else_body"])
    (hps : ∀ p ∈ ps, p.Reads bound depth child all) : ∀ (m : Members) (s : List UInt8),
      Json.nestingOfItems items ≤ depth →
        Rest bound (Json.itemTokens m.seen.isEmpty items ++ ts) s → ∃ s',
          listMembers bound depth child compound (ps.map Prod.fst ++ rest) m s =
            .ok ((ps.map Prod.fst).foldl all.take m, s') ∧
              Rest bound (.symbol .listEnd :: ts) s' := by
  induction h with
  | nil =>
    intro m s _ hs
    rcases hrest with rfl | rfl
    · exact ⟨s, rfl, hs⟩
    · obtain ⟨s', hmore, hs'⟩ := hs.noMoreItems m.seen.isEmpty
      refine ⟨s', ?_, hs'⟩
      show listMembers bound depth child compound ["else_body"] m s = _
      rw [listMembers, hmore]
      rfl
  | @cons p j ps items hj _ ih =>
    intro m s hnesting hs
    rw [Json.nestingOfItems] at hnesting
    have hitem : Rest bound (separator m.seen.isEmpty ++
        (j.tokens ++ (Json.itemTokens false items ++ ts))) s := by
      simpa [Json.itemTokens] using hs
    obtain ⟨s₁, hmore, hs₁⟩ := hitem.moreItems
    obtain ⟨s₂, hpart, hs₂⟩ := hps p (List.mem_cons_self ..) m j hj (by omega) _ s₁
      (delimited_itemTokens items ts) hs₁
    obtain ⟨s', hitems, hs'⟩ := ih (fun p hp => hps p (List.mem_cons_of_mem _ hp))
      (all.take m p.1) s₂ (by omega) hs₂
    refine ⟨s', ?_, hs'⟩
    show listMembers bound depth child compound (p.1 :: (ps.map Prod.fst ++ rest)) m s = _
    rw [listMembers, hmore]
    show (m.read bound depth child p.1 s₁ >>= _) = _
    rw [hpart]
    exact hitems

/-- All parts, in an object or in a list. -/
theorem reads_parts (all : Members) {ps : List Part} {n : Node} {j : Json} {rest : List String}
    (hj : Fields compound.fields ps j) (hnesting : j.nesting ≤ depth + 1)
    (hrest : rest = [] ∨ rest = ["else_body"])
    (hfields : compound.fields = ps.map Prod.fst ++ rest)
    (hps : ∀ p ∈ ps, p.Reads bound depth child all) (hall : all.Within (ps.map Prod.fst))
    (hn : all.assemble compound = .ok n) :
    Reads bound j.tokens (parts bound depth (some child) compound) n := by
  intro ts s hts hs
  cases hj with
  | @list items hitems =>
    rw [Json.nesting] at hnesting
    obtain ⟨s₁, hskip, hs₁⟩ := Rest.symbol hs
    obtain ⟨s₂, hread, hs₂⟩ := reads_listMembers hitems hrest hps .empty s₁ (by omega) hs₁
    obtain ⟨s', hend, hs'⟩ := hs₂.endOfList
    refine ⟨s', ?_, hs'⟩
    unfold parts
    rw [hskip]
    show (listMembers bound depth child compound compound.fields .empty s₁ >>= fun p =>
      p.1.assemble compound >>= fun n => endOfList p.2 >>= fun s => pure (n, s)) = _
    rw [hfields, hread]
    show (Members.assemble _ compound >>= fun n => endOfList s₂ >>= fun s => pure (n, s)) = _
    rw [hall.assemble_takes, hn, hend]
    rfl
  | @object ps' members hperm hmixed =>
    rw [Json.nesting] at hnesting
    obtain ⟨s₁, hskip, hs₁⟩ := Rest.symbol hs
    have hnames : (ps'.map Prod.fst).Perm (ps.map Prod.fst) := hperm.map _
    have hps' : ∀ p ∈ ps', p.Reads bound depth child all ∧ p.1 ∈ compound.fields := by
      intro p hp
      have hmem := hperm.mem_iff.1 hp
      refine ⟨hps p hmem, ?_⟩
      rw [hfields]
      exact List.mem_append_left _ (List.mem_map_of_mem hmem)
    have hnodup : (ps'.map Prod.fst ++ Members.empty.seen).Nodup := by
      have hnodup := compound.fields_nodup
      rw [hfields] at hnodup
      rw [Members.empty, List.append_nil, hnames.nodup_iff]
      exact hnodup.sublist (List.sublist_append_left _ _)
    obtain ⟨s', hread, hs'⟩ := reads_objectMembers hmixed hps' true bound .empty hnodup (by omega)
      (Rest.lt_of_le_length hs₁ (length_members_le members true)) ts s₁ hts hs₁
    refine ⟨s', ?_, hs'⟩
    unfold parts
    rw [hskip]
    show (objectMembers bound depth child compound bound true .empty s₁ >>= fun p =>
      p.1.assemble compound >>= fun n => pure (n, p.2)) = _
    rw [hread]
    show (Members.assemble _ compound >>= fun n => pure (n, s')) = _
    rw [(hall.of_perm hnames).assemble_takes, hn]
    rfl

end TreeScript.Document
