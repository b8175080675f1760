import TreeScript.Proofs.Document.Stored
import TreeScript.Proofs.Number.Range

/-!
# What loads can be stored

A tree that a reader builds within a number of brackets can be written within as many
(`Node.Storable`), whatever form its document had, and its numbers are finite. Both facts
pass through the readers as they do through a proof about what a program ensures: `Ensures`
speaks of the results that are not errors, and passes a sequence (`Ensures.bind`).

`loadTree_storable` draws the conclusion for whole documents: what loads can be stored and
loaded again, and nothing changes any more.
-/

namespace TreeScript

open Number

namespace Document

/-! ## Numbers -/

variable {x y : Float}

/-- The powers of ten that numbers are divided by. -/
theorem exists_shape_powerOfTen {k : ℕ} (hk : k ≤ 308) :
    ∃ p, shape (powerOfTen k) = .finite p ∧ 1 ≤ p.magnitude := by
  rcases le_or_gt k 22 with hle | hgt
  · obtain ⟨p, hp⟩ := computes_powerOfTen_exact hle
    refine ⟨p, hp.shape, ?_⟩
    rw [Near.zero_iff.1 hp.near]
    exact one_le_pow_ten k
  · obtain ⟨p, hp⟩ := computes_powerOfTen hk
    refine ⟨p, hp.shape, le_trans ?_ hp.near.right⟩
    have hten : (10 : ℚ) ^ 1 ≤ 10 ^ k := pow_le_pow_right₀ (by norm_num) (by omega)
    have hdrift : (1 : ℚ) / 2 ≤ drift ^ 1 := by norm_num [drift]
    calc (1 : ℚ) ≤ 10 ^ 1 * (1 / 2) := by norm_num
      _ ≤ 10 ^ k * drift ^ 1 := mul_le_mul hten hdrift (by norm_num) (by positivity)

theorem isFinite_scaleDown {last : ℕ} (hlast : last ≤ 308) : ∀ (rounds : ℕ) {x : Float},
    x.isFinite → (scaleDown x last rounds).isFinite
  | 0, _, hx => by
    obtain ⟨p, hp, hone⟩ := exists_shape_powerOfTen hlast
    exact isFinite_div hx hp hone
  | rounds + 1, x, hx => by
    obtain ⟨p, hp, hone⟩ := exists_shape_powerOfTen le_rfl
    rw [scaleDown]
    split
    · exact hx
    · exact isFinite_scaleDown hlast rounds (isFinite_div hx hp hone)

/-- Scaling refuses what is not finite. -/
theorem isFinite_of_scale {e : ℤ} (hx : x.isFinite) (h : scale x e = some y) : y.isFinite := by
  unfold scale at h
  split at h
  · cases h
    exact isFinite_scaleDown (by omega) _ hx
  · split at h
    · rename_i hle
      obtain ⟨p, hp, hone⟩ := exists_shape_powerOfTen (show e.toNat ≤ 308 by omega)
      have hp' : p.mantissa ≠ 0 := by
        intro hzero
        rw [Finite.magnitude, hzero] at hone
        norm_num at hone
      dsimp only at h
      split at h
      · cases h
      · rename_i hinf
        cases h
        exact isFinite_mul hx hp hp' (by simpa using hinf)
    · split at h
      · cases h
        exact hx
      · cases h

theorem isFinite_signed (hx : x.isFinite) (negative : Bool) :
    (if negative then -x else x).isFinite := by
  cases negative with
  | true => exact isFinite_neg hx
  | false => exact hx

/-- The number of a numeral, however long it is spelled. -/
theorem isFinite_of_quantity {n : Numeral} {q : Quantity} (h : n.quantity = some q) :
    q.toFloat.isFinite := by
  cases q with
  | integer i =>
    unfold Quantity.toFloat
    dsimp only
    split
    · exact isFinite_neg (isFinite_toFloat _)
    · exact isFinite_toFloat _
  | real x =>
    show x.isFinite
    unfold Numeral.quantity at h
    dsimp only at h
    split at h
    · split at h
      · cases h
      · split at h
        · cases h
        · cases h
          exact isFinite_signed (isFinite_toFloat _) _
    · obtain ⟨y, hy, hxy⟩ := Option.map_eq_some_iff.1 h
      cases hxy
      exact isFinite_signed (isFinite_of_scale (isFinite_toFloat _) hy) _

/-! ## What reading ensures -/

/-- A result that is not an error has a property. -/
def Ensures {α : Type} (Q : α → Prop) (r : Except Error α) : Prop :=
  ∀ a, r = .ok a → Q a

namespace Ensures

variable {α β : Type} {P Q : α → Prop} {R : β → Prop} {r : Except Error α}

theorem ok {a : α} (h : Q a) : Ensures Q (.ok a) := by
  rintro b ⟨⟩
  exact h

theorem error (e : Error) : Ensures Q (.error e) :=
  nofun

theorem imp (h : Ensures P r) (hPQ : ∀ a, P a → Q a) : Ensures Q r :=
  fun a ha => hPQ a (h a ha)

theorem bind {f : α → Except Error β} (h : Ensures P r) (hf : ∀ a, P a → Ensures R (f a)) :
    Ensures R (r >>= f) := by
  cases r with
  | error e => exact .error e
  | ok a => exact hf a (h a rfl)

/-- After a part of which nothing is known. -/
theorem after {f : α → Except Error β} (hf : ∀ a, Ensures R (f a)) : Ensures R (r >>= f) :=
  bind (P := fun _ => True) (fun _ _ => trivial) fun a _ => hf a

end Ensures

end Document

/-! ## Trees within a number of brackets -/

/-- A value that can be stored within a number of brackets. -/
structure Value.Storable (depth : ℕ) (v : Value) : Prop where
  nesting : v.nesting ≤ depth
  finite : ∀ x ∈ v.numbers, x.isFinite

/-- A tree that can be stored within a number of brackets. -/
structure Node.Storable (depth : ℕ) (n : Node) : Prop where
  nesting : n.nesting ≤ depth
  finite : ∀ x ∈ n.numbers, x.isFinite

namespace Node.Storable

variable {depth : ℕ}

theorem literal {v : Value} (h : v.Storable depth) : (Node.literal v).Storable (depth + 1) :=
  ⟨Nat.succ_le_succ h.nesting, h.finite⟩

theorem print {n : Node} (h : n.Storable depth) : (Node.print n).Storable (depth + 1) :=
  ⟨Nat.succ_le_succ h.nesting, h.finite⟩

theorem inspect {n : Node} (h : n.Storable depth) : (Node.inspect n).Storable (depth + 1) :=
  ⟨Nat.succ_le_succ h.nesting, h.finite⟩

theorem var (name : String) : (Node.var name).Storable (depth + 1) :=
  ⟨Nat.le_add_left 1 depth, nofun⟩

theorem identifier (name : String) : (Node.identifier name).Storable (depth + 1) :=
  ⟨Nat.le_add_left 1 depth, nofun⟩

theorem binary {l r : Node} (op : Operator) (hl : l.Storable depth) (hr : r.Storable depth) :
    (Node.binary op l r).Storable (depth + 2) :=
  ⟨Nat.add_le_add_right (max_le hl.nesting hr.nesting) 2,
    List.forall_mem_append.2 ⟨hl.finite, hr.finite⟩⟩

theorem ifThen {t b : Node} (ht : t.Storable depth) (hb : b.Storable depth) :
    (Node.ifThen t b).Storable (depth + 2) :=
  ⟨Nat.add_le_add_right (max_le ht.nesting hb.nesting) 2,
    List.forall_mem_append.2 ⟨ht.finite, hb.finite⟩⟩

theorem ifElse {t b e : Node} (ht : t.Storable depth) (hb : b.Storable depth)
    (he : e.Storable depth) : (Node.ifElse t b e).Storable (depth + 2) :=
  ⟨Nat.add_le_add_right (max_le (max_le ht.nesting hb.nesting) he.nesting) 2,
    List.forall_mem_append.2 ⟨List.forall_mem_append.2 ⟨ht.finite, hb.finite⟩, he.finite⟩⟩

theorem whileLoop {t b : Node} (ht : t.Storable depth) (hb : b.Storable depth) :
    (Node.whileLoop t b).Storable (depth + 2) :=
  ⟨Nat.add_le_add_right (max_le ht.nesting hb.nesting) 2,
    List.forall_mem_append.2 ⟨ht.finite, hb.finite⟩⟩

theorem assign {t n : Node} (ht : t.Storable depth) (hn : n.Storable depth) :
    (Node.assign t n).Storable (depth + 2) :=
  ⟨Nat.add_le_add_right (max_le ht.nesting hn.nesting) 2,
    List.forall_mem_append.2 ⟨ht.finite, hn.finite⟩⟩

theorem nestingOfAll_le {ns : List Node} (h : ∀ n ∈ ns, n.Storable depth) :
    nestingOfAll ns ≤ depth := by
  induction ns with
  | nil => exact Nat.zero_le depth
  | cons n ns ih =>
    exact max_le (h n (List.mem_cons_self ..)).nesting
      (ih fun m hm => h m (List.mem_cons_of_mem _ hm))

theorem block {ns : List Node} (h : ∀ n ∈ ns, n.Storable depth) :
    (Node.block ns).Storable (depth + 2) := by
  refine ⟨Nat.add_le_add_right (nestingOfAll_le h) 2, fun x hx => ?_⟩
  rw [numbers, numbersOfAll_eq_flatMap] at hx
  obtain ⟨n, hn, hx⟩ := List.mem_flatMap.1 hx
  exact (h n hn).finite x hx

end Node.Storable

namespace Document

open Node

/-! ## Values and parts -/

variable {bound depth : ℕ}

theorem ensures_real (bound : ℕ) (s : List UInt8) :
    Ensures (fun p => p.1.isFinite) (real bound s) := by
  unfold real
  split
  · exact .error _
  · split
    · refine Ensures.bind (P := fun p => p.1.toFloat.isFinite) ?_ fun p hp => .ok hp
      unfold quantity
      refine Ensures.after fun ⟨n, s⟩ => ?_
      dsimp only
      split
      · rename_i q hq
        exact .ok (isFinite_of_quantity hq)
      · exact .error _
    · exact Ensures.after fun _ => .error _

/-- A variant is what its name alone stands for, or what its content is read as. -/
theorem ensures_variant {τ α : Type} {Q : α → Prop} {known : List τ} {nameOf : τ → String}
    {bare : τ → Except Error α} {content : Option (τ → Reader α)}
    (hbare : ∀ v, Ensures Q (bare v))
    (hcontent : ∀ read ∈ content, ∀ v s, Ensures (fun p => Q p.1) (read v s)) (s : List UInt8) :
    Ensures (fun p => Q p.1) (variant bound known nameOf bare content s) := by
  unfold variant
  split
  · exact .error _
  · split
    · exact .error _
    · refine Ensures.after fun ⟨name, s⟩ => Ensures.after fun v => Ensures.after fun s => ?_
      exact (hcontent _ rfl v s).bind fun p hp => Ensures.after fun _ => .ok hp
  · refine Ensures.after fun ⟨name, s⟩ => Ensures.after fun v => ?_
    exact (hbare v).bind fun _ h => .ok h
  · exact .error _

theorem ensures_value (s : List UInt8) :
    Ensures (fun p => p.1.Storable depth) (value bound depth s) := by
  refine ensures_variant (fun k => ?_) (fun read hread k s => ?_) s
  · cases k with
    | unit => exact .ok ⟨Nat.zero_le depth, nofun⟩
    | _ => exact .error _
  · unfold inBracket at hread
    split at hread
    · cases hread
    · rename_i hdepth
      cases hread
      have hone : 1 ≤ depth := Nat.one_le_iff_ne_zero.2 hdepth
      cases k with
      | number =>
        refine (ensures_real bound s).bind fun p hp => .ok ⟨hone, fun x hx => ?_⟩
        rw [List.mem_singleton.1 hx]
        exact hp
      | boolean => exact Ensures.after fun _ => .ok ⟨hone, nofun⟩
      | string => exact Ensures.after fun _ => .ok ⟨hone, nofun⟩
      | unit => exact Ensures.after fun _ => .ok ⟨Nat.zero_le depth, nofun⟩

/-- The parts that have been read so far can be stored. -/
def Members.Storable (depth : ℕ) (m : Members) : Prop :=
  ∀ p ∈ m.nodes, p.2.Storable depth

theorem Members.Storable.lookup {m : Members} {name : String} {n : Node} (hm : m.Storable depth)
    (h : m.nodes.lookup name = some n) : n.Storable depth := by
  obtain ⟨l₁, l₂, hnodes, -⟩ := List.lookup_eq_some_iff.1 h
  exact hm (name, n) (by simp [hnodes])

section

variable {child : Reader Node} {compound : Compound} {m : Members}
  (hchild : ∀ s, Ensures (fun p => p.1.Storable depth) (child s))

theorem ensures_node_of_members (hm : m.Storable depth) (name : String) :
    Ensures (Node.Storable depth) (m.node name) := by
  unfold Members.node
  split
  · rename_i n hn
    exact .ok (hm.lookup hn)
  · exact .error _

/-- A node opens one bracket for itself and one for its parts. -/
theorem ensures_assemble (hm : m.Storable depth) (compound : Compound) :
    Ensures (Node.Storable (depth + 2)) (m.assemble compound) := by
  have hnode := ensures_node_of_members hm
  cases compound with
  | binary =>
    unfold Members.assemble
    dsimp only
    split
    · exact (hnode _).bind fun l hl => (hnode _).bind fun r hr => .ok (.binary _ hl hr)
    · exact .error _
  | conditional =>
    refine (hnode _).bind fun t ht => (hnode _).bind fun b hb => ?_
    split
    · rename_i e he
      exact .ok (.ifElse ht hb (hm.lookup he))
    · exact .ok (.ifThen ht hb)
  | whileLoop => exact (hnode _).bind fun t ht => (hnode _).bind fun b hb => .ok (.whileLoop ht hb)
  | assign => exact (hnode _).bind fun t ht => (hnode _).bind fun n hn => .ok (.assign ht hn)

include hchild

theorem ensures_read (hm : m.Storable depth) (d : ℕ) (name : String) (s : List UInt8) :
    Ensures (fun p => p.1.Storable depth) (m.read bound d child name s) := by
  have hadd (s : List UInt8) : Ensures (fun p : Members × List UInt8 => p.1.Storable depth)
      (child s >>= fun p => pure (m.add name p.1, p.2)) :=
    (hchild s).bind fun p hp => .ok (List.forall_mem_cons.2 ⟨hp, hm⟩)
  unfold Members.read
  dsimp only
  split
  · exact Ensures.after fun _ => .ok hm
  · split
    · split
      · exact Ensures.after fun _ => .ok hm
      · exact hadd _
    · exact hadd _

theorem ensures_objectMembers (d : ℕ) : ∀ (steps : ℕ) (isFirst : Bool) {m : Members},
    m.Storable depth → ∀ s, Ensures (fun p => p.1.Storable depth)
      (objectMembers bound d child compound steps isFirst m s)
  | 0, _, _, _, _ => .error _
  | steps + 1, isFirst, m, hm, s => by
    rw [objectMembers]
    refine Ensures.after fun ⟨key, s⟩ => ?_
    dsimp only
    split
    · exact .ok hm
    · split
      · split
        · exact .error _
        · refine Ensures.after fun s => ?_
          exact (ensures_read hchild hm d _ s).bind fun p hp =>
            ensures_objectMembers d steps false hp p.2
      · exact Ensures.after fun s => Ensures.after fun s =>
          ensures_objectMembers d steps false hm s

theorem ensures_listMembers (d : ℕ) : ∀ (names : List String) {m : Members},
    m.Storable depth → ∀ s, Ensures (fun p => p.1.Storable depth)
      (listMembers bound d child compound names m s)
  | [], _, hm, _ => .ok hm
  | name :: names, m, hm, s => by
    rw [listMembers]
    refine Ensures.after fun ⟨more, s⟩ => ?_
    dsimp only
    split
    · exact (ensures_read hchild hm d _ s).bind fun p hp =>
        ensures_listMembers d names hp p.2
    · split
      · exact .ok hm
      · exact .error _

theorem ensures_items : ∀ (steps : ℕ) (isFirst : Bool) (s : List UInt8),
    Ensures (fun p => ∀ n ∈ p.1, n.Storable depth) (items child steps isFirst s)
  | 0, _, _ => .error _
  | steps + 1, isFirst, s => by
    rw [items]
    refine Ensures.after fun ⟨more, s⟩ => ?_
    dsimp only
    split
    · exact (hchild s).bind fun p hp => (ensures_items steps false p.2).bind fun q hq =>
        .ok (List.forall_mem_cons.2 ⟨hp, hq⟩)
    · exact Ensures.after fun _ => .ok nofun

end

/-! ## Nodes -/

variable {inner : Option (Reader Node)}
  (hinner : ∀ child ∈ inner, ∃ d, depth = d + 1 ∧
    ∀ s, Ensures (fun p => p.1.Storable d) (child s))

include hinner

theorem ensures_parts (d : ℕ) (compound : Compound) (s : List UInt8) :
    Ensures (fun p => p.1.Storable (depth + 1)) (parts bound d inner compound s) := by
  unfold parts
  split
  · split
    · exact .error _
    · rename_i child
      obtain ⟨d', rfl, hchild⟩ := hinner child rfl
      exact (ensures_objectMembers hchild d bound true (m := .empty) nofun _).bind fun p hp =>
        (ensures_assemble hp compound).bind fun n hn => .ok hn
  · split
    · exact .error _
    · rename_i child
      obtain ⟨d', rfl, hchild⟩ := hinner child rfl
      exact (ensures_listMembers hchild d compound.fields (m := .empty) nofun _).bind fun p hp =>
        (ensures_assemble hp compound).bind fun n hn => Ensures.after fun _ => .ok hn
  · exact Ensures.after fun _ => .error _

theorem ensures_sequence (s : List UInt8) :
    Ensures (fun p => (Node.block p.1).Storable (depth + 1)) (sequence bound inner s) := by
  unfold sequence
  split
  · split
    · exact .error _
    · rename_i child
      obtain ⟨d', rfl, hchild⟩ := hinner child rfl
      exact (ensures_items hchild bound true _).imp fun p hp => .block hp
  · exact Ensures.after fun _ => .error _

theorem ensures_nodeContent {same : Reader Node}
    (hsame : ∀ s, Ensures (fun p => p.1.Storable depth) (same s)) (k : Kind) (s : List UInt8) :
    Ensures (fun p => p.1.Storable (depth + 1)) (nodeContent bound depth same inner k s) := by
  cases k with
  | literal => exact (ensures_value s).bind fun p hp => .ok (.literal hp)
  | print => exact (hsame s).bind fun p hp => .ok hp.print
  | block => exact (ensures_sequence hinner s).bind fun p hp => .ok hp
  | var => exact Ensures.after fun p => .ok (.var p.1)
  | identifier => exact Ensures.after fun p => .ok (.identifier p.1)
  | inspect => exact (hsame s).bind fun p hp => .ok hp.inspect
  | _ => exact ensures_parts hinner _ _ s

omit hinner

/-- A tree can be stored within the brackets in which it was read. -/
theorem ensures_node (bound depth : ℕ) (s : List UInt8) :
    Ensures (fun p => p.1.Storable depth) (node bound depth s) := by
  have hbare (Q : Node → Prop) (k : Kind) : Ensures Q (bareNode k) := by
    cases k <;> exact .error _
  induction depth using Nat.strong_induction_on generalizing s with
  | h depth ih =>
    cases depth with
    | zero => exact ensures_variant (hbare _) nofun s
    | succ depth =>
      rw [node_succ]
      refine ensures_variant (hbare _) (fun read hread k s => ?_) s
      cases hread
      refine ensures_nodeContent (fun child hchild => ?_) (fun s => ih depth (by omega) s) k s
      cases depth with
      | zero => cases hchild
      | succ d =>
        cases hchild
        exact ⟨d, rfl, fun s => ih d (by omega) s⟩

theorem ensures_decode (bytes : ByteArray) :
    Ensures (Node.Storable nestingLimit) (decode bytes) := by
  refine (ensures_node _ nestingLimit _).bind fun p hp => ?_
  show Ensures _ (if _ then pure p.1 else throw _)
  split
  · exact .ok hp
  · exact .error _

end Document

/-- A tree that loads has finite numbers only, and its document nests at most 127 brackets.
So if its numbers come back alone, it loads again from its own document, as it was and
with the same document. -/
theorem loadTree_storable {b : ByteArray} {journal : Journal} {n : Node}
    (h : (loadTree b journal).1 = .ok n) : (∀ x ∈ n.numbers, x.isFinite) ∧ n.nesting ≤ 127 ∧
      ((∀ x ∈ n.numbers, Document.decodeValue (Document.encodeValue (.number x)).toUTF8 =
          .ok (.number x)) →
        ∀ journal', (loadTree (Document.encode n).toUTF8 journal').1 = .ok n ∧
          ∀ n', (loadTree (Document.encode n).toUTF8 journal').1 = .ok n' →
            Document.encode n' = Document.encode n) := by
  have hdecode : Document.decode b = .ok n := Document.eq_ok_of_mapError_eq_ok h
  obtain ⟨hnesting, hfinite⟩ := Document.ensures_decode b n hdecode
  refine ⟨hfinite, hnesting, fun hx journal' => ?_⟩
  have hreload : Document.reload n Document.nestingLimit = .ok n :=
    Document.reload_of_nesting_le n
      (fun x hmem => Document.rereadNumber_of_decodeValue (hx x hmem)) hnesting
  have hload : (loadTree (Document.encode n).toUTF8 journal').1 = .ok n := by
    rw [loadTree_encode_eq, hreload]
    rfl
  refine ⟨hload, fun n' hn' => ?_⟩
  rw [hload] at hn'
  cases hn'
  rfl

/-- The parts in a list with a null, an escape, and a number with an exponent. -/
theorem loadTree_storable_parts :
    let b : ByteArray := ("\x7b\"If\": [\x7b\"Literal\":\x7b\"Number\":5e2\x7d\x7d," ++
      " \x7b\"Var\":\"\\u0061\"\x7d, null]\x7d").toUTF8
    let n : Node := .ifThen (.literal (.number 500.0)) (.var "a")
    (loadTree b .off).1 = .ok n ∧ (500.0 : Float).isFinite ∧ n.nesting = 4 ∧
      (loadTree (Document.encode n).toUTF8 .off).1 = .ok n := by
  intro b n
  have h : (loadTree b .off).1 = .ok n := rfl
  obtain ⟨hfinite, -, hstore⟩ := loadTree_storable h
  have hread : Document.rereadNumber 500.0 = .ok 500.0 :=
    Document.eq_ok_of_toOption (by decide +kernel)
  have hx : ∀ x ∈ n.numbers, Document.decodeValue (Document.encodeValue (.number x)).toUTF8 =
      .ok (.number x) := by
    intro x hx
    obtain rfl : x = 500.0 := List.mem_singleton.1 hx
    rw [Document.decodeValue_encode]
    show (Document.rereadNumber 500.0).map Value.number = _
    rw [hread]
    rfl
  exact ⟨h, hfinite 500.0 (List.mem_singleton_self _), rfl, (hstore hx .off).1⟩

end TreeScript
