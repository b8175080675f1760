import TreeScript.Proofs.Document.Written
import TreeScript.Proofs.Names

/-!
# Trees come back

`reload n depth` is what a tree becomes that is stored and read again where `depth`
brackets may be opened. It follows the tree: every node opens a bracket, a node with
parts opens another one, and numbers are read from their text. `node_encode` says that
the reader makes of a tree's document what `reload` makes of the tree, and leaves what
follows.
-/

namespace TreeScript.Document

/-! ## The tree that comes back -/

/-- Goes on inside a bracket, if one may be opened. -/
def opening {α : Type} : Nat → (Nat → Except Error α) → Except Error α
  | 0, _ => .error .tooDeep
  | depth + 1, inside => inside depth

/-- The value that comes back where some brackets may be opened. -/
def reloadValue (v : Value) (depth : Nat) : Except Error Value :=
  match v with
  | .number x => opening depth fun _ => (rereadNumber x).map .number
  | .boolean b => opening depth fun _ => .ok (.boolean b)
  | .string s => opening depth fun _ => .ok (.string s)
  | .unit => .ok .unit

mutual

/-- The tree that comes back where some brackets may be opened. -/
def reload : Node → Nat → Except Error Node
  | .literal v, depth => opening depth fun depth => do return .literal (← reloadValue v depth)
  | .print inner, depth => opening depth fun depth => do return .print (← reload inner depth)
  | .binary op left right, depth => opening depth fun depth => opening depth fun depth => do
    return .binary op (← reload left depth) (← reload right depth)
  | .ifThen test body, depth => opening depth fun depth => opening depth fun depth => do
    return .ifThen (← reload test depth) (← reload body depth)
  | .ifElse test body otherwise, depth => opening depth fun depth => opening depth fun depth => do
    return .ifElse (← reload test depth) (← reload body depth) (← reload otherwise depth)
  | .whileLoop test body, depth => opening depth fun depth => opening depth fun depth => do
    return .whileLoop (← reload test depth) (← reload body depth)
  | .block nodes, depth => opening depth fun depth => opening depth fun depth => do
    return .block (← reloadAll nodes depth)
  | .var name, depth => opening depth fun _ => .ok (.var name)
  | .identifier name, depth => opening depth fun _ => .ok (.identifier name)
  | .assign target value, depth => opening depth fun depth => opening depth fun depth => do
    return .assign (← reload target depth) (← reload value depth)
  | .inspect inner, depth => opening depth fun depth => do return .inspect (← reload inner depth)

def reloadAll : List Node → Nat → Except Error (List Node)
  | [], _ => .ok []
  | node :: nodes, depth => do return (← reload node depth) :: (← reloadAll nodes depth)

end

/-! ## Results -/

section Results

variable {α β ε : Type} {r : Except Error α} {b : β}

theorem opening_eq_ok {f : Nat → Except Error α} {a : α} {depth : Nat}
    (h : opening depth f = .ok a) : ∃ d, depth = d + 1 ∧ f d = .ok a := by
  cases depth with
  | zero => cases h
  | succ depth => exact ⟨depth, rfl, h⟩

theorem exists_of_bind_eq_ok {f : α → Except Error β} (h : r >>= f = .ok b) :
    ∃ a, r = .ok a ∧ f a = .ok b := by
  cases r with
  | error e => cases h
  | ok a => exact ⟨a, rfl, h⟩

theorem exists_of_map_eq_ok {f : α → β} (h : r.map f = .ok b) : ∃ a, r = .ok a ∧ b = f a := by
  cases r with
  | error e => cases h
  | ok a => exact ⟨a, rfl, (Except.ok.inj h).symm⟩

theorem eq_ok_of_mapError_eq_ok {f : Error → ε} {a : α} (h : r.mapError f = .ok a) :
    r = .ok a := by
  cases r with
  | error e => cases h
  | ok a' => exact congrArg _ (Except.ok.inj h)

end Results

/-! ## Values and operators -/

variable {bound depth : Nat} {s : List UInt8}

theorem choose_kind (k : Node.Kind) : choose Node.Kind.all Node.Kind.name k.name = .ok k := by
  cases k <;> rfl

theorem choose_valueKind (k : Value.Kind) :
    choose Value.Kind.all Value.Kind.name k.name = .ok k := by
  cases k <;> rfl

theorem choose_operator (op : Operator) : choose Operator.all Operator.name op.name = .ok op := by
  rcases op with (_ | _ | _ | _) | (_ | _ | _ | _) | _ | _ | (_ | _) <;> rfl

theorem operator_encode (op : Operator) (h : (bytes (encodeOperator op) ++ s).length < bound) :
    operator bound depth (bytes (encodeOperator op) ++ s) = .ok (op, s) :=
  variant_quoted (choose_operator op) h

theorem ends_objectEnd (s : List UInt8) : Ends (Mark.objectEnd :: s) := by
  rintro b ⟨⟩
  decide

theorem boolean_text (b : Bool) :
    boolean bound (bytes (if b then "true" else "false") ++ s) = .ok (b, s) := by
  have htrue : bytes "true" = Mark.lowerT :: restOfTrue := by decide
  have hfalse : bytes "false" = Mark.lowerF :: restOfFalse := by decide
  cases b with
  | true =>
    rw [if_pos rfl, htrue]
    rfl
  | false =>
    rw [if_neg Bool.false_ne_true, hfalse]
    rfl

/-- A value that is written with its content. -/
theorem value_tagged {k : Value.Kind} {c : String} {r : Except Error Value}
    (h : (bytes (tagged k.name c) ++ s).length < bound)
    (hcontent : (bytes c ++ Mark.objectEnd :: s).length < bound →
      valueContent bound k (bytes c ++ Mark.objectEnd :: s) = r.map (·, Mark.objectEnd :: s)) :
    value bound depth (bytes (tagged k.name c) ++ s) = (opening depth fun _ => r).map (·, s) := by
  cases depth with
  | zero => exact variant_tagged_none _ _
  | succ depth => exact variant_tagged (choose_valueKind k) h hcontent

theorem value_encode (v : Value) (h : (bytes (encodeValue v) ++ s).length < bound) :
    value bound depth (bytes (encodeValue v) ++ s) = (reloadValue v depth).map (·, s) := by
  cases v with
  | number x =>
    refine value_tagged (k := .number) h fun _ => ?_
    show (real bound _ >>= fun p => pure (Value.number p.1, p.2)) = _
    rw [real_text bound x (ends_objectEnd s)]
    cases rereadNumber x <;> rfl
  | boolean b =>
    refine value_tagged (k := .boolean) h fun _ => ?_
    show (boolean bound _ >>= fun p => pure (Value.boolean p.1, p.2)) = _
    rw [boolean_text]
    rfl
  | string x =>
    refine value_tagged (k := .string) h fun hlength => ?_
    show (string bound _ >>= fun p => pure (Value.string p.1, p.2)) = _
    rw [string_quoted x hlength]
    rfl
  | unit => exact variant_quoted (v := Value.Kind.unit) (choose_valueKind _) h

/-! ## Nodes -/

/-- The reader of nodes inside one more bracket, if one may be opened. -/
def innerNode (bound : Nat) : Nat → Option (Reader Node)
  | 0 => none
  | depth + 1 => some (node bound depth)

theorem node_succ (bound depth : Nat) : node bound (depth + 1) =
    variant bound Node.Kind.all Node.Kind.name bareNode
      (some (nodeContent bound depth (node bound depth) (innerNode bound depth))) := by
  cases depth <;> rfl

/-- A node opens a bracket, and is read as its content is. -/
theorem node_tagged {k : Node.Kind} {c : String} {r : Nat → Except Error Node}
    (h : (bytes (tagged k.name c) ++ s).length < bound)
    (hcontent : ∀ depth, (bytes c ++ Mark.objectEnd :: s).length < bound →
      nodeContent bound depth (node bound depth) (innerNode bound depth) k
        (bytes c ++ Mark.objectEnd :: s) = (r depth).map (·, Mark.objectEnd :: s)) :
    node bound depth (bytes (tagged k.name c) ++ s) = (opening depth r).map (·, s) := by
  cases depth with
  | zero => exact variant_tagged_none _ _
  | succ depth =>
    rw [node_succ]
    exact variant_tagged (choose_kind k) h (hcontent depth)

/-- The document of a node is an object. -/
theorem exists_bytes_encode (n : Node) : ∃ s, bytes (encode n) = Mark.objectStart :: s := by
  cases n <;> exact ⟨_, bytes_tagged _ _⟩

/-! ## Nodes with named parts -/

/-- A node read as a part. -/
def Members.add (m : Members) (name : String) (n : Node) : Members :=
  ⟨name :: m.seen, m.operator, (name, n) :: m.nodes⟩

/-- The parts that come back where some brackets may be opened, after others. -/
def reloadParts : List (String × Node) → Nat → Members → Except Error Members
  | [], _, m => .ok m
  | (name, n) :: ps, depth, m => do reloadParts ps depth (m.add name (← reload n depth))

/-- The texts of parts that are nodes. -/
def encodeParts (ps : List (String × Node)) : List (String × String) :=
  ps.map fun p => (p.1, encode p.2)

variable {child : Reader Node} {compound : Compound}

theorem read_node {m : Members} {name : String} {n : Node} {r : Except Error Node}
    (hname : name ≠ "op") (hchild : child (bytes (encode n) ++ s) = r.map (·, s)) :
    m.read bound depth child name (bytes (encode n) ++ s) =
      r.map fun n => (m.add name n, s) := by
  obtain ⟨s', hbytes⟩ := exists_bytes_encode n
  have hread : m.read bound depth child name (bytes (encode n) ++ s) =
      child (bytes (encode n) ++ s) >>= fun p => pure (m.add name p.1, p.2) := by
    rw [hbytes]
    unfold Members.read
    rw [if_neg hname]
    split <;> rfl
  rw [hread, hchild]
  cases r <;> rfl

theorem objectMembers_member {isFirst : Bool} {steps : Nat} {m : Members} {name : String}
    {s' : List UInt8} (hkey : nextKey bound isFirst s' = .ok (some name, Mark.colon :: s))
    (hfield : name ∈ compound.fields) (hseen : name ∉ m.seen) :
    objectMembers bound depth child compound (steps + 1) isFirst m s' =
      m.read bound depth child name s >>= fun p =>
        objectMembers bound depth child compound steps false p.1 p.2 := by
  show (nextKey bound isFirst s' >>= _) = _
  rw [hkey]
  show (if name ∈ compound.fields then _ else _ : Except Error (Members × List UInt8)) = _
  rw [if_pos hfield, if_neg hseen]
  rfl

/-- The reader of nodes makes of some trees what `reload` does. -/
def Rereads (bound : Nat) (n : Node) : Prop :=
  ∀ (depth : Nat) (s : List UInt8), (bytes (encode n) ++ s).length < bound →
    node bound depth (bytes (encode n) ++ s) = (reload n depth).map (·, s)

theorem objectMembers_first {name : String} (hfield : name ∈ compound.fields)
    (h : (bytes (quoted name) ++ Mark.colon :: s).length < bound) :
    objectMembers bound depth child compound bound true .empty
        (bytes (quoted name) ++ Mark.colon :: s) =
      Members.empty.read bound depth child name s >>= fun p =>
        objectMembers bound depth child compound (bound - 1) false p.1 p.2 := by
  obtain ⟨steps, hsteps⟩ := Nat.exists_eq_add_one_of_ne_zero (Nat.ne_zero_of_lt h)
  have hmember : objectMembers bound depth child compound (steps + 1) true .empty
      (bytes (quoted name) ++ Mark.colon :: s) = _ :=
    objectMembers_member (nextKey_first name h) hfield (by simp [Members.empty])
  rw [← hsteps] at hmember
  rw [hmember, show bound - 1 = steps by omega]

theorem objectMembers_more (hdepth : Nat) : ∀ (ps : List (String × Node)) (m : Members)
    (steps : Nat), (∀ p ∈ ps, Rereads bound p.2) →
    (∀ p ∈ ps, p.1 ∈ compound.fields ∧ p.1 ≠ "op" ∧ p.1 ∉ m.seen) → (ps.map Prod.fst).Nodup →
    (moreMembers (encodeParts ps) ++ s).length ≤ steps →
    (moreMembers (encodeParts ps) ++ s).length < bound →
      objectMembers bound hdepth (node bound depth) compound steps false m
        (moreMembers (encodeParts ps) ++ s) = (reloadParts ps depth m).map (·, s)
  | [], m, 0, _, _, _, hsteps, _ => by simp [encodeParts, moreMembers] at hsteps
  | [], m, steps + 1, _, _, _, _, _ => rfl
  | (name, n) :: ps, m, 0, _, _, _, hsteps, _ => by simp [encodeParts, moreMembers] at hsteps
  | (name, n) :: ps, m, steps + 1, hps, hnames, hnodup, hsteps, hbound => by
    obtain ⟨hfield, hop, hseen⟩ := hnames _ (List.mem_cons_self ..)
    have htext : moreMembers (encodeParts ((name, n) :: ps)) ++ s = Mark.comma ::
        (bytes (quoted name) ++ Mark.colon ::
          (bytes (encode n) ++ (moreMembers (encodeParts ps) ++ s))) := by
      simp [encodeParts, moreMembers]
    rw [htext] at hsteps hbound ⊢
    simp only [List.length_cons, List.length_append] at hsteps hbound
    have hnode := hps _ (List.mem_cons_self ..) depth (moreMembers (encodeParts ps) ++ s)
      (by simp only [List.length_append]; omega)
    rw [objectMembers_member (nextKey_more name (by
      simp only [List.length_cons, List.length_append]
      omega)) hfield hseen, read_node hop hnode, reloadParts]
    cases reload n depth with
    | error e => rfl
    | ok n' =>
      rw [List.map_cons, List.nodup_cons] at hnodup
      refine objectMembers_more hdepth ps (m.add name n') steps
        (fun p hp => hps p (List.mem_cons_of_mem _ hp)) (fun p hp => ?_) hnodup.2
        (by simp only [List.length_append]; omega) (by simp only [List.length_append]; omega)
      obtain ⟨hfield', hop', hseen'⟩ := hnames p (List.mem_cons_of_mem _ hp)
      refine ⟨hfield', hop', fun hmem => ?_⟩
      have hp' : p.1 ∈ ps.map Prod.fst := List.mem_map_of_mem hp
      rcases List.mem_cons.1 hmem with h | h
      · exact hnodup.1 (h ▸ hp')
      · exact hseen' h

/-- A node with parts opens a bracket for them. -/
theorem parts_object {s' : List UInt8} {r : Nat → Except Error Members}
    (h : ∀ depth, objectMembers bound depth (node bound depth) compound bound true .empty s' =
      (r depth).map (·, s)) :
    parts bound (depth - 1) (innerNode bound depth) compound (Mark.objectStart :: s') =
      (opening depth fun depth => r depth >>= (·.assemble compound)).map (·, s) := by
  cases depth with
  | zero => rfl
  | succ depth =>
    show (objectMembers bound depth (node bound depth) compound bound true .empty s' >>= fun p =>
      p.1.assemble compound >>= fun n => pure (n, p.2)) = _
    rw [h]
    show _ = (r depth >>= (·.assemble compound)).map (·, s)
    cases r depth with
    | error e => rfl
    | ok m =>
      show (m.assemble compound >>= fun n => pure (n, s)) = (m.assemble compound).map (·, s)
      cases m.assemble compound <;> rfl

/-- Parts that are nodes are read as `reloadParts` does. -/
theorem parts_nodes {key : String} {n : Node} {ps : List (String × Node)}
    (hps : ∀ p ∈ (key, n) :: ps, Rereads bound p.2)
    (hnames : ∀ p ∈ (key, n) :: ps, p.1 ∈ compound.fields ∧ p.1 ≠ "op")
    (hnodup : (((key, n) :: ps).map Prod.fst).Nodup)
    (h : (bytes (object (encodeParts ((key, n) :: ps))) ++ s).length < bound) :
    parts bound (depth - 1) (innerNode bound depth) compound
      (bytes (object (encodeParts ((key, n) :: ps))) ++ s) =
        (opening depth fun depth =>
          reloadParts ((key, n) :: ps) depth .empty >>= (·.assemble compound)).map (·, s) := by
  have htext : bytes (object (encodeParts ((key, n) :: ps))) ++ s = Mark.objectStart ::
      (bytes (quoted key) ++ Mark.colon ::
        (bytes (encode n) ++ (moreMembers (encodeParts ps) ++ s))) := by
    simp [encodeParts, bytes_object]
  rw [htext] at h ⊢
  simp only [List.length_cons, List.length_append] at h
  refine parts_object fun depth => ?_
  obtain ⟨hfield, hop⟩ := hnames _ (List.mem_cons_self ..)
  have hnode := hps _ (List.mem_cons_self ..) depth (moreMembers (encodeParts ps) ++ s)
    (by simp only [List.length_append]; omega)
  rw [objectMembers_first hfield (by simp only [List.length_cons, List.length_append]; omega),
    read_node hop hnode, reloadParts]
  cases reload n depth with
  | error e => rfl
  | ok n' =>
    rw [List.map_cons, List.nodup_cons] at hnodup
    refine objectMembers_more depth ps _ _ (fun p hp => hps p (List.mem_cons_of_mem _ hp))
      (fun p hp => ?_) hnodup.2 (by simp only [List.length_append]; omega)
      (by simp only [List.length_append]; omega)
    obtain ⟨hfield', hop'⟩ := hnames p (List.mem_cons_of_mem _ hp)
    refine ⟨hfield', hop', fun hmem => ?_⟩
    have hp' : p.1 ∈ ps.map Prod.fst := List.mem_map_of_mem hp
    exact hnodup.1 (List.mem_singleton.1 hmem ▸ hp')

/-- The parts of a binary operator, of which the operator is the first. -/
theorem parts_binary {op : Operator} {left right : Node} (hl : Rereads bound left)
    (hr : Rereads bound right)
    (h : (bytes (object [("op", encodeOperator op), ("left", encode left),
      ("right", encode right)]) ++ s).length < bound) :
    parts bound (depth - 1) (innerNode bound depth) .binary (bytes (object
      [("op", encodeOperator op), ("left", encode left), ("right", encode right)]) ++ s) =
        (opening depth fun depth => reloadParts [("left", left), ("right", right)] depth
          ⟨["op"], some op, []⟩ >>= (·.assemble .binary)).map (·, s) := by
  have htext : bytes (object [("op", encodeOperator op), ("left", encode left),
      ("right", encode right)]) ++ s = Mark.objectStart :: (bytes (quoted "op") ++ Mark.colon ::
        (bytes (encodeOperator op) ++
          (moreMembers (encodeParts [("left", left), ("right", right)]) ++ s))) := by
    simp [encodeParts, bytes_object]
  rw [htext] at h ⊢
  simp only [List.length_cons, List.length_append] at h
  refine parts_object fun depth => ?_
  rw [objectMembers_first (by decide) (by simp only [List.length_cons, List.length_append]; omega)]
  show ((operator bound depth _ >>= fun p => pure (⟨["op"], some p.1, []⟩, p.2)) >>= fun p =>
    objectMembers bound depth (node bound depth) .binary (bound - 1) false p.1 p.2) = _
  rw [operator_encode op (by simp only [List.length_append]; omega)]
  refine objectMembers_more depth _ ⟨["op"], some op, []⟩ _ ?_ ?_ (by simp)
    (by simp only [List.length_append]; omega) (by simp only [List.length_append]; omega)
  · intro p hp
    rcases List.mem_cons.1 hp with rfl | hp
    · exact hl
    · rw [List.mem_singleton.1 hp]
      exact hr
  · intro p hp
    rcases List.mem_cons.1 hp with rfl | hp
    · dsimp only
      decide
    · rw [List.mem_singleton.1 hp]
      dsimp only
      decide

/-- A node opens one bracket for itself and one for its parts. -/
theorem node_parts (compound : Compound) (key : String) (n : Node) (ps : List (String × Node))
    {r : Nat → Except Error Node} (hps : ∀ p ∈ (key, n) :: ps, Rereads bound p.2)
    (hnames : ∀ p ∈ (key, n) :: ps, p.1 ∈ compound.fields ∧ p.1 ≠ "op")
    (hnodup : (((key, n) :: ps).map Prod.fst).Nodup)
    (hassemble : ∀ depth,
      reloadParts ((key, n) :: ps) depth .empty >>= (·.assemble compound) = r depth)
    (h : (bytes (tagged compound.kind.name (object (encodeParts ((key, n) :: ps)))) ++ s).length <
      bound) :
    node bound depth
      (bytes (tagged compound.kind.name (object (encodeParts ((key, n) :: ps)))) ++ s) =
        (opening depth fun depth => opening depth r).map (·, s) := by
  refine node_tagged h fun depth hlength => ?_
  have hcontent : ∀ s', nodeContent bound depth (node bound depth) (innerNode bound depth)
      compound.kind s' = parts bound (depth - 1) (innerNode bound depth) compound s' := by
    intro s'
    cases compound <;> rfl
  rw [hcontent, parts_nodes hps hnames hnodup hlength]
  simp only [hassemble]

/-! ## Sequences -/

theorem moreItems_first (n : Node) (s : List UInt8) :
    moreItems true (bytes (encode n) ++ s) = .ok (true, bytes (encode n) ++ s) := by
  obtain ⟨s', hbytes⟩ := exists_bytes_encode n
  rw [hbytes]
  rfl

theorem moreItems_more (n : Node) (s : List UInt8) :
    moreItems false (Mark.comma :: (bytes (encode n) ++ s)) =
      .ok (true, bytes (encode n) ++ s) := by
  obtain ⟨s', hbytes⟩ := exists_bytes_encode n
  rw [hbytes]
  rfl

/-- One item of a list, and the items after it. -/
theorem items_cons {isFirst : Bool} {steps : Nat} {n : Node} {nodes : List Node}
    {s' : List UInt8} (hn : Rereads bound n)
    (hmore : moreItems isFirst s' =
      .ok (true, bytes (encode n) ++ (moreTexts (encodeAll nodes) ++ s)))
    (hbound : (bytes (encode n) ++ (moreTexts (encodeAll nodes) ++ s)).length < bound)
    (hrest : items (node bound depth) steps false (moreTexts (encodeAll nodes) ++ s) =
      (reloadAll nodes depth).map (·, s)) :
    items (node bound depth) (steps + 1) isFirst s' =
      (reloadAll (n :: nodes) depth).map (·, s) := by
  show (moreItems isFirst s' >>= _) = _
  rw [hmore]
  show (node bound depth _ >>= fun p =>
    items (node bound depth) steps false p.2 >>= fun q => pure (p.1 :: q.1, q.2)) = _
  rw [hn depth _ hbound, reloadAll]
  cases reload n depth with
  | error e => rfl
  | ok n' =>
    show (items (node bound depth) steps false (moreTexts (encodeAll nodes) ++ s) >>= fun q =>
      pure (n' :: q.1, q.2)) = (reloadAll nodes depth >>= fun ns => pure (n' :: ns)).map (·, s)
    rw [hrest]
    cases reloadAll nodes depth <;> rfl

theorem items_more : ∀ (nodes : List Node) (steps : Nat), (∀ n ∈ nodes, Rereads bound n) →
    (moreTexts (encodeAll nodes) ++ s).length ≤ steps →
    (moreTexts (encodeAll nodes) ++ s).length < bound →
      items (node bound depth) steps false (moreTexts (encodeAll nodes) ++ s) =
        (reloadAll nodes depth).map (·, s)
  | [], 0, _, hsteps, _ => by simp [encodeAll, moreTexts] at hsteps
  | [], steps + 1, _, _, _ => rfl
  | n :: nodes, 0, _, hsteps, _ => by simp [encodeAll, moreTexts] at hsteps
  | n :: nodes, steps + 1, hnodes, hsteps, hbound => by
    have htext : moreTexts (encodeAll (n :: nodes)) ++ s = Mark.comma ::
        (bytes (encode n) ++ (moreTexts (encodeAll nodes) ++ s)) := by
      simp [encodeAll, moreTexts]
    rw [htext] at hsteps hbound ⊢
    simp only [List.length_cons, List.length_append] at hsteps hbound
    refine items_cons (hnodes n (List.mem_cons_self ..)) (moreItems_more n _)
      (by simp only [List.length_append]; omega) ?_
    exact items_more nodes steps (fun n hn => hnodes n (List.mem_cons_of_mem _ hn))
      (by simp only [List.length_append]; omega) (by simp only [List.length_append]; omega)

/-- A sequence opens a bracket for its nodes. -/
theorem sequence_encode {nodes : List Node} (hnodes : ∀ n ∈ nodes, Rereads bound n)
    (h : (bytes ("[" ++ ",".intercalate (encodeAll nodes) ++ "]") ++ s).length < bound) :
    sequence bound (innerNode bound depth)
      (bytes ("[" ++ ",".intercalate (encodeAll nodes) ++ "]") ++ s) =
        (opening depth (reloadAll nodes)).map (·, s) := by
  obtain ⟨steps, hsteps⟩ := Nat.exists_eq_add_one_of_ne_zero (Nat.ne_zero_of_lt h)
  cases nodes with
  | nil =>
    rw [encodeAll, bytes_list_nil]
    cases depth with
    | zero => rfl
    | succ depth =>
      rw [hsteps]
      rfl
  | cons n nodes =>
    rw [encodeAll, bytes_list_cons, List.cons_append, List.append_assoc] at h ⊢
    simp only [List.length_cons, List.length_append] at h
    cases depth with
    | zero => rfl
    | succ depth =>
      have hrest : items (node bound depth) steps false (moreTexts (encodeAll nodes) ++ s) =
          (reloadAll nodes depth).map (·, s) :=
        items_more nodes steps (fun n hn => hnodes n (List.mem_cons_of_mem _ hn))
          (by simp only [List.length_append]; omega) (by simp only [List.length_append]; omega)
      have hitems := items_cons (hnodes n (List.mem_cons_self ..)) (moreItems_first n _)
        (by simp only [List.length_append]; omega) hrest
      rw [← hsteps] at hitems
      exact hitems

/-! ## All nodes -/

/-- The reader makes of a tree's document what `reload` makes of the tree. -/
theorem node_encode (bound : Nat) (n : Node) : Rereads bound n := by
  induction n with
  | literal v =>
    intro depth s h
    rw [encode] at h ⊢
    rw [reload]
    refine node_tagged (k := .literal) h fun depth hlength => ?_
    show (value bound depth _ >>= fun p => pure (Node.literal p.1, p.2)) = _
    rw [value_encode v hlength]
    cases reloadValue v depth <;> rfl
  | print inner ih =>
    intro depth s h
    rw [encode] at h ⊢
    rw [reload]
    refine node_tagged (k := .print) h fun depth hlength => ?_
    show (node bound depth _ >>= fun p => pure (Node.print p.1, p.2)) = _
    rw [ih depth _ hlength]
    cases reload inner depth <;> rfl
  | binary op left right ihl ihr =>
    intro depth s h
    rw [encode] at h ⊢
    rw [reload]
    refine node_tagged (k := .binary) h fun depth hlength => ?_
    refine (parts_binary ihl ihr hlength).trans ?_
    congr 2
    funext depth
    simp only [reloadParts]
    cases reload left depth with
    | error e => rfl
    | ok left => cases reload right depth <;> rfl
  | ifThen test body iht ihb =>
    intro depth s h
    rw [encode] at h ⊢
    rw [reload]
    refine node_parts .conditional "condition" test [("body", body)]
      (by simp [iht, ihb]) (by simp [Compound.fields]) (by simp) (fun depth => ?_) h
    simp only [reloadParts]
    cases reload test depth with
    | error e => rfl
    | ok test => cases reload body depth <;> rfl
  | ifElse test body otherwise iht ihb iho =>
    intro depth s h
    rw [encode] at h ⊢
    rw [reload]
    refine node_parts .conditional "condition" test
      [("body", body), ("else_body", otherwise)]
      (by simp [iht, ihb, iho]) (by simp [Compound.fields]) (by simp) (fun depth => ?_) h
    simp only [reloadParts]
    cases reload test depth with
    | error e => rfl
    | ok test =>
      cases reload body depth with
      | error e => rfl
      | ok body => cases reload otherwise depth <;> rfl
  | whileLoop test body iht ihb =>
    intro depth s h
    rw [encode] at h ⊢
    rw [reload]
    refine node_parts .whileLoop "condition" test [("body", body)]
      (by simp [iht, ihb]) (by simp [Compound.fields]) (by simp) (fun depth => ?_) h
    simp only [reloadParts]
    cases reload test depth with
    | error e => rfl
    | ok test => cases reload body depth <;> rfl
  | block nodes ih =>
    intro depth s h
    rw [encode] at h ⊢
    rw [reload]
    refine node_tagged (k := .block) h fun depth hlength => ?_
    show (sequence bound (innerNode bound depth) _ >>= fun p =>
      pure (Node.block p.1, p.2)) = _
    rw [sequence_encode ih hlength]
    cases depth with
    | zero => rfl
    | succ depth =>
      simp only [opening]
      cases reloadAll nodes depth <;> rfl
  | var name =>
    intro depth s h
    rw [encode] at h ⊢
    rw [reload]
    refine node_tagged (k := .var) h fun depth hlength => ?_
    show (string bound _ >>= fun p => pure (Node.var p.1, p.2)) = _
    rw [string_quoted name hlength]
    rfl
  | identifier name =>
    intro depth s h
    rw [encode] at h ⊢
    rw [reload]
    refine node_tagged (k := .identifier) h fun depth hlength => ?_
    show (string bound _ >>= fun p => pure (Node.identifier p.1, p.2)) = _
    rw [string_quoted name hlength]
    rfl
  | assign target value iht ihv =>
    intro depth s h
    rw [encode] at h ⊢
    rw [reload]
    refine node_parts .assign "target" target [("value", value)]
      (by simp [iht, ihv]) (by simp [Compound.fields]) (by simp) (fun depth => ?_) h
    simp only [reloadParts]
    cases reload target depth with
    | error e => rfl
    | ok target => cases reload value depth <;> rfl
  | inspect inner ih =>
    intro depth s h
    rw [encode] at h ⊢
    rw [reload]
    refine node_tagged (k := .inspect) h fun depth hlength => ?_
    show (node bound depth _ >>= fun p => pure (Node.inspect p.1, p.2)) = _
    rw [ih depth _ hlength]
    cases reload inner depth <;> rfl

end TreeScript.Document
