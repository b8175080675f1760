import TreeScript.Proofs.Document.Layout
import TreeScript.Proofs.Document.RoundTrip
import TreeScript.Proofs.Number.Range
import TreeScript.Proofs.Texts

/-!
# The layout that is written

`Node.json` is the document that `encode` writes, as a syntax tree: its tokens without
blanks are the text (`spread_encode`), it has the nesting that `Node.nesting` counts
(`Node.nesting_json`), and it is one of the layouts of the tree, if the numbers are finite
(`Node.layout_json`).
-/

namespace TreeScript

namespace Document

/-! ## Strings -/

/-- A character as it is written. -/
def Piece.written (c : Char) : Piece :=
  match c with
  | '"' => .letter .quote
  | '\\' => .letter .backslash
  | '\x08' => .letter .b
  | '\t' => .letter .t
  | '\n' => .letter .n
  | '\x0c' => .letter .f
  | '\r' => .letter .r
  | c =>
    if h : 0x20 ≤ c.toNat ∧ c ≠ '"' ∧ c ≠ '\\' then .plain c h
    else .unit ⟨⟨0, false⟩, ⟨0, false⟩, ⟨Fin.ofNat 16 (c.toNat / 16), false⟩,
      ⟨Fin.ofNat 16 c.toNat, false⟩⟩

/-- What is written for a character stands for it. -/
theorem Piece.written_cases (c : Char) : (written c).chars = escapeChar c ∧
    ∀ ps cs, Denotes ps cs → Denotes (written c :: ps) (c :: cs) := by
  unfold written
  split
  · exact ⟨rfl, fun _ _ => .letter .quote⟩
  · exact ⟨rfl, fun _ _ => .letter .backslash⟩
  · exact ⟨rfl, fun _ _ => .letter .b⟩
  · exact ⟨rfl, fun _ _ => .letter .t⟩
  · exact ⟨rfl, fun _ _ => .letter .n⟩
  · exact ⟨rfl, fun _ _ => .letter .f⟩
  · exact ⟨rfl, fun _ _ => .letter .r⟩
  · rename_i hquote hbackslash hb ht hn hf hr
    have hescape : escapeChar c = if c.toNat < 0x20 then
        ['\\', 'u', '0', '0', hexDigit (c.toNat / 16), hexDigit c.toNat] else [c] := by
      rw [escapeChar]
      · exact hquote
      · exact hbackslash
      · exact hb
      · exact ht
      · exact hn
      · exact hf
      · exact hr
    rw [hescape]
    split
    · rename_i hplain
      rw [if_neg (Nat.not_lt_of_le hplain.1)]
      exact ⟨rfl, fun _ _ => .plain c hplain⟩
    · rename_i hplain
      have hcontrol : c.toNat < 0x20 :=
        Nat.lt_of_not_le fun hle => hplain ⟨hle, hquote, hbackslash⟩
      rw [if_pos hcontrol]
      refine ⟨rfl, fun ps cs => .unit ?_⟩
      simp [CodeUnit.value]
      omega

theorem denotes_written (cs : List Char) : Denotes (cs.map Piece.written) cs := by
  induction cs with
  | nil => exact .nil
  | cons c cs ih => exact (Piece.written_cases c).2 _ _ ih

/-- A string as it is written. -/
def Json.text (s : String) : Json :=
  .string (s.toList.map Piece.written)

theorem named_text (s : String) : Named s (Json.text s) :=
  ⟨_, denotes_written _, rfl⟩

/-- A document without blanks. -/
def Json.chars (j : Json) : List Char :=
  j.tokens.flatMap Token.chars

theorem toList_quoted (s : String) : (quoted s).toList = (Json.text s).chars := by
  have hpieces : s.toList.flatMap escapeChar =
      (s.toList.map Piece.written).flatMap Piece.chars := by
    rw [List.flatMap_map]
    exact List.flatMap_congr fun c _ => (Piece.written_cases c).1.symm
  rw [quoted, String.toList_ofList, hpieces]
  simp [Json.chars, Json.text, Json.tokens, Token.chars]

/-! ## Lists and objects -/

/-- A member with its key as it is written. -/
def keyed (name : String) (j : Json) : List Piece × Json :=
  (name.toList.map Piece.written, j)

theorem chars_memberTokens_cons (isFirst : Bool) (name : String) (j : Json)
    (ms : List (List Piece × Json)) :
    (Json.memberTokens isFirst (keyed name j :: ms)).flatMap Token.chars =
      (if isFirst then [] else [',']) ++ ((quoted name).toList ++
        ':' :: (j.chars ++ (Json.memberTokens false ms).flatMap Token.chars)) := by
  have hkey : (Token.string (name.toList.map Piece.written)).chars = (quoted name).toList := by
    rw [toList_quoted]
    exact (List.flatMap_singleton ..).symm
  have hcolon : (Token.symbol .colon).chars = [':'] := rfl
  have hcomma : (separator isFirst).flatMap Token.chars = if isFirst then [] else [','] := by
    cases isFirst <;> rfl
  rw [keyed, Json.memberTokens, List.flatMap_append, List.flatMap_cons, List.flatMap_cons,
    List.flatMap_append, hkey, hcolon, hcomma]
  rfl

/-- What is written for the members of an object after others. -/
theorem chars_memberTokens (ms : List (String × String × Json))
    (h : ∀ m ∈ ms, m.2.1.toList = m.2.2.chars) :
    (Json.memberTokens false (ms.map fun m => keyed m.1 m.2.2)).flatMap Token.chars =
      (ms.flatMap fun m => ',' :: (quoted m.1 ++ ":" ++ m.2.1).toList) ++ ['\x7d'] := by
  induction ms with
  | nil => rfl
  | cons m ms ih =>
    rw [List.map_cons, chars_memberTokens_cons, ih fun m hm => h m (List.mem_cons_of_mem _ hm),
      ← h m (List.mem_cons_self ..)]
    simp

theorem toList_object (ms : List (String × String × Json))
    (h : ∀ m ∈ ms, m.2.1.toList = m.2.2.chars) :
    (object (ms.map fun m => (m.1, m.2.1))).toList =
      (Json.object (ms.map fun m => keyed m.1 m.2.2)).chars := by
  cases ms with
  | nil => rfl
  | cons m ms =>
    have hstart : (Json.object ((m :: ms).map fun m => keyed m.1 m.2.2)).chars = '\x7b' ::
        (Json.memberTokens true ((m :: ms).map fun m => keyed m.1 m.2.2)).flatMap Token.chars := rfl
    rw [hstart, List.map_cons, List.map_cons, chars_memberTokens_cons,
      chars_memberTokens ms fun m hm => h m (List.mem_cons_of_mem _ hm),
      ← h m (List.mem_cons_self ..), object, List.map_cons, String.toList_append,
      String.toList_append, Text.toList_intercalate]
    simp [List.flatMap_map]

/-- What is written for the items of a list after others. -/
theorem chars_itemTokens (js : List Json) :
    (Json.itemTokens false js).flatMap Token.chars =
      (js.flatMap fun j => ',' :: j.chars) ++ [']'] := by
  induction js with
  | nil => rfl
  | cons j js ih =>
    rw [Json.itemTokens, List.flatMap_append, List.flatMap_append, ih]
    simp [separator, Token.chars, Symbol.char, Json.chars]

theorem toList_list {texts : List String} {js : List Json}
    (h : texts.map String.toList = js.map Json.chars) :
    ("[" ++ ",".intercalate texts ++ "]").toList = (Json.list js).chars := by
  have hstart : (Json.list js).chars = '[' :: (Json.itemTokens true js).flatMap Token.chars := rfl
  cases js with
  | nil =>
    rw [List.map_eq_nil_iff.1 h]
    rfl
  | cons j js =>
    obtain ⟨text, texts, rfl, htext, htexts⟩ := List.map_eq_cons_iff.1 h
    have hmore : (texts.flatMap fun text => ",".toList ++ text.toList) =
        js.flatMap fun j => ',' :: j.chars := by
      have hmap := congrArg (List.flatMap (',' :: ·)) htexts
      rwa [List.flatMap_map, List.flatMap_map] at hmap
    rw [hstart, Json.itemTokens, List.flatMap_append, List.flatMap_append, chars_itemTokens,
      String.toList_append, String.toList_append, Text.toList_intercalate, htext, hmore]
    simp [separator, Json.chars]

/-- A variant with its content. -/
def Json.tag (name : String) (c : Json) : Json :=
  .object [keyed name c]

theorem toList_tagged {name content : String} {c : Json} (h : content.toList = c.chars) :
    (tagged name content).toList = (Json.tag name c).chars :=
  toList_object [(name, content, c)] (by simpa using h)

/-- A finite number as it is written. -/
def Figure.written (x : Number.Finite) : Figure :=
  ⟨finiteSpelling x, wellFormed_finiteSpelling x, false, true⟩

theorem Figure.chars_written (x : Number.Finite) :
    (Figure.written x).chars = (Number.Style.document.finiteText x).toList := by
  have hchars (p : Spelling) (h : p.WellFormed) : Figure.chars ⟨p, h, false, true⟩ = p.chars := by
    obtain ⟨negative, whole, fraction, exponent⟩ := p
    rcases exponent with _ | ⟨_ | _, digits⟩ <;> rfl
  rw [finiteText_document, String.toList_ofList]
  exact hchars _ _

/-- What is written for a number. -/
def numberJson (x : Float) : Json :=
  match Number.shape x with
  | .finite parts => .number (.written parts)
  | _ => .null

theorem toList_text (x : Float) :
    (Number.Style.document.text x).toList = (numberJson x).chars := by
  unfold numberJson Number.Style.text
  cases Number.shape x with
  | notANumber => rfl
  | infinite negative => cases negative <;> rfl
  | finite parts =>
    dsimp only
    rw [← Figure.chars_written]
    exact (List.flatMap_singleton ..).symm

end Document

open Document

def Value.json : Value → Json
  | .number x => .tag "Number" (numberJson x)
  | .boolean b => .tag "Boolean" (.boolean b)
  | .string s => .tag "String" (.text s)
  | .unit => .text "Unit"

mutual

/-- The document of a tree as it is written. -/
def Node.json : Node → Json
  | .literal value => .tag "Literal" value.json
  | .print inner => .tag "Print" inner.json
  | .binary op left right => .tag "BinaryOperator" <| .object
    [keyed "op" (.text op.name), keyed "left" left.json, keyed "right" right.json]
  | .ifThen condition body => .tag "If" <| .object
    [keyed "condition" condition.json, keyed "body" body.json]
  | .ifElse condition body otherwise => .tag "If" <| .object
    [keyed "condition" condition.json, keyed "body" body.json, keyed "else_body" otherwise.json]
  | .whileLoop condition body => .tag "While" <| .object
    [keyed "condition" condition.json, keyed "body" body.json]
  | .block nodes => .tag "Block" <| .list (Node.jsonAll nodes)
  | .var name => .tag "Var" (.text name)
  | .identifier name => .tag "Identifier" (.text name)
  | .assign target value => .tag "Assign" <| .object
    [keyed "target" target.json, keyed "value" value.json]
  | .inspect inner => .tag "DebugGetValue" inner.json

def Node.jsonAll : List Node → List Json
  | [] => []
  | node :: nodes => node.json :: Node.jsonAll nodes

end

theorem Node.jsonAll_eq_map (nodes : List Node) : Node.jsonAll nodes = nodes.map Node.json := by
  induction nodes with
  | nil => rfl
  | cons node nodes ih => rw [Node.jsonAll, ih, List.map_cons]

theorem encodeAll_eq_map (nodes : List Node) : encodeAll nodes = nodes.map encode := by
  induction nodes with
  | nil => rfl
  | cons node nodes ih => rw [encodeAll, ih, List.map_cons]

/-! ## The text -/

/-- Tokens with blanks before each and after all of them. -/
theorem spread_spaced (before after : List Char)
    (hbefore : ∀ c ∈ before, c ∈ [' ', '\t', '\n', '\r'])
    (hafter : ∀ c ∈ after, c ∈ [' ', '\t', '\n', '\r']) (tokens : List Token) :
    Spread tokens (tokens.flatMap (before ++ Token.chars ·) ++ after) := by
  have hblanks {ts : List Token} {cs : List Char} (h : Spread ts cs) :
      ∀ {blanks : List Char}, (∀ c ∈ blanks, c ∈ [' ', '\t', '\n', '\r']) →
        Spread ts (blanks ++ cs) := by
    intro blanks hblanks
    induction blanks with
    | nil => exact h
    | cons c blanks ih =>
      exact .blank (hblanks c (List.mem_cons_self ..))
        (ih fun c hc => hblanks c (List.mem_cons_of_mem _ hc))
  induction tokens with
  | nil => simpa using hblanks .nil hafter
  | cons t tokens ih =>
    rw [List.flatMap_cons, List.append_assoc, List.append_assoc]
    exact hblanks (.token t ih) hbefore

theorem toList_encodeValue (v : Value) : (encodeValue v).toList = v.json.chars := by
  cases v with
  | number x => exact toList_tagged (toList_text x)
  | boolean b => exact toList_tagged (by cases b <;> rfl)
  | string s => exact toList_tagged (toList_quoted s)
  | unit => exact toList_quoted "Unit"

theorem toList_encode (n : Node) : (encode n).toList = n.json.chars := by
  induction n with
  | literal v =>
    rw [encode, Node.json]
    exact toList_tagged (toList_encodeValue v)
  | print inner ih =>
    rw [encode, Node.json]
    exact toList_tagged ih
  | binary op left right ihl ihr =>
    rw [encode, Node.json]
    refine toList_tagged (toList_object [("op", encodeOperator op, .text op.name),
      ("left", encode left, left.json), ("right", encode right, right.json)] ?_)
    simp [ihl, ihr, encodeOperator, toList_quoted]
  | ifThen test body iht ihb =>
    rw [encode, Node.json]
    refine toList_tagged (toList_object [("condition", encode test, test.json),
      ("body", encode body, body.json)] ?_)
    simp [iht, ihb]
  | ifElse test body otherwise iht ihb iho =>
    rw [encode, Node.json]
    refine toList_tagged (toList_object [("condition", encode test, test.json),
      ("body", encode body, body.json), ("else_body", encode otherwise, otherwise.json)] ?_)
    simp [iht, ihb, iho]
  | whileLoop test body iht ihb =>
    rw [encode, Node.json]
    refine toList_tagged (toList_object [("condition", encode test, test.json),
      ("body", encode body, body.json)] ?_)
    simp [iht, ihb]
  | block nodes ih =>
    rw [encode, Node.json]
    refine toList_tagged (toList_list ?_)
    rw [encodeAll_eq_map, Node.jsonAll_eq_map, List.map_map, List.map_map]
    exact List.map_congr_left ih
  | var name =>
    rw [encode, Node.json]
    exact toList_tagged (toList_quoted name)
  | identifier name =>
    rw [encode, Node.json]
    exact toList_tagged (toList_quoted name)
  | assign target value iht ihv =>
    rw [encode, Node.json]
    refine toList_tagged (toList_object [("target", encode target, target.json),
      ("value", encode value, value.json)] ?_)
    simp [iht, ihv]
  | inspect inner ih =>
    rw [encode, Node.json]
    exact toList_tagged ih

/-- What is written has no blanks. -/
theorem spread_encode (n : Node) : Spread n.json.tokens (encode n).toList := by
  rw [toList_encode, Json.chars]
  simpa using spread_spaced [] [] nofun nofun n.json.tokens

/-! ## Its nesting -/

theorem Json.nesting_tag (name : String) (c : Json) :
    (Json.tag name c).nesting = c.nesting + 1 := by
  simp [Json.tag, keyed, Json.nesting, Json.nestingOfMembers]

theorem Value.nesting_json (v : Value) : v.json.nesting = v.nesting := by
  cases v with
  | number x =>
    rw [Value.json, Json.nesting_tag]
    unfold numberJson
    split <;> rfl
  | _ => rfl

/-- The document of a tree has as many open brackets as are counted. -/
theorem Node.nesting_json (n : Node) : n.json.nesting = n.nesting := by
  induction n with
  | literal v => rw [Node.json, Json.nesting_tag, Value.nesting_json, Node.nesting]
  | print inner ih => rw [Node.json, Json.nesting_tag, ih, Node.nesting]
  | block nodes ih =>
    have hitems : Json.nestingOfItems (nodes.map Node.json) = Node.nestingOfAll nodes := by
      induction nodes with
      | nil => rfl
      | cons n nodes ihn =>
        rw [List.map_cons, Json.nestingOfItems, Node.nestingOfAll, ih n (List.mem_cons_self ..),
          ihn fun n hn => ih n (List.mem_cons_of_mem _ hn)]
    rw [Node.json, Json.nesting_tag, Node.jsonAll_eq_map, Json.nesting, hitems, Node.nesting]
  | var name => rfl
  | identifier name => rfl
  | inspect inner ih => rw [Node.json, Json.nesting_tag, ih, Node.nesting]
  | _ =>
    rw [Node.json, Json.nesting_tag, Node.nesting]
    simp [Json.nesting, Json.nestingOfMembers, keyed, Json.text, *]

/-! ## A layout -/

theorem tagged_tag {name : String} {layout : Json → Prop} {c : Json} (h : layout c) :
    Tagged name layout (Json.tag name c) :=
  ⟨_, c, denotes_written _, h, rfl⟩

/-- Parts in their order, with their keys as they are written. -/
theorem fields_keyed (names : List String) (ps : List (String × (Json → Prop) × Json))
    (h : ∀ p ∈ ps, p.2.1 p.2.2) :
    Fields names (ps.map fun p => (p.1, p.2.1)) (.object (ps.map fun p => keyed p.1 p.2.2)) := by
  refine .object (.refl _) ?_
  induction ps with
  | nil => exact .nil
  | cons p ps ih =>
    exact .part (denotes_written _) (h p (List.mem_cons_self ..))
      (ih fun p hp => h p (List.mem_cons_of_mem _ hp))

theorem Value.layout_json {v : Value} (h : ∀ x ∈ v.numbers, x.isFinite) : v.Layout v.json := by
  cases v with
  | number x =>
    obtain ⟨parts, hparts⟩ :=
      (Number.isFinite_iff_exists_shape x).1 (h x (List.mem_singleton_self x))
    refine tagged_tag ⟨.written parts, ?_, ?_⟩
    · rw [Figure.chars_written, Number.Style.text, hparts]
    · rw [numberJson, hparts]
  | boolean b => exact tagged_tag rfl
  | string s => exact tagged_tag (named_text s)
  | unit => exact .inl (named_text "Unit")

/-- What is written is a layout of the tree, if all of it is written. -/
theorem Node.layout_json (n : Node) (h : ∀ x ∈ n.numbers, x.isFinite) : n.Layout n.json := by
  induction n with
  | literal v => exact tagged_tag (Value.layout_json h)
  | print inner ih => exact tagged_tag (ih h)
  | binary op left right ihl ihr =>
    rw [Node.numbers, List.forall_mem_append] at h
    refine tagged_tag (fields_keyed _ [("op", op.Layout, .text op.name),
      ("left", left.Layout, left.json), ("right", right.Layout, right.json)] ?_)
    simp only [List.forall_mem_cons]
    exact ⟨.inl (named_text op.name), ihl h.1, ihr h.2, List.forall_mem_nil _⟩
  | ifThen test body iht ihb =>
    rw [Node.numbers, List.forall_mem_append] at h
    refine tagged_tag (.inl (fields_keyed _ [("condition", test.Layout, test.json),
      ("body", body.Layout, body.json)] ?_))
    simp only [List.forall_mem_cons]
    exact ⟨iht h.1, ihb h.2, List.forall_mem_nil _⟩
  | ifElse test body otherwise iht ihb iho =>
    rw [Node.numbers, List.forall_mem_append, List.forall_mem_append] at h
    refine tagged_tag (fields_keyed _ [("condition", test.Layout, test.json),
      ("body", body.Layout, body.json), ("else_body", otherwise.Layout, otherwise.json)] ?_)
    simp only [List.forall_mem_cons]
    exact ⟨iht h.1.1, ihb h.1.2, iho h.2, List.forall_mem_nil _⟩
  | whileLoop test body iht ihb =>
    rw [Node.numbers, List.forall_mem_append] at h
    refine tagged_tag (fields_keyed _ [("condition", test.Layout, test.json),
      ("body", body.Layout, body.json)] ?_)
    simp only [List.forall_mem_cons]
    exact ⟨iht h.1, ihb h.2, List.forall_mem_nil _⟩
  | block nodes ih =>
    rw [Node.numbers, Node.numbersOfAll_eq_flatMap] at h
    refine tagged_tag ⟨_, rfl, ?_⟩
    induction nodes with
    | nil => trivial
    | cons n nodes ihn =>
      rw [List.flatMap_cons, List.forall_mem_append] at h
      exact ⟨ih n (List.mem_cons_self ..) h.1,
        ihn (fun n hn => ih n (List.mem_cons_of_mem _ hn)) h.2⟩
  | var name => exact tagged_tag (named_text name)
  | identifier name => exact tagged_tag (named_text name)
  | assign target value iht ihv =>
    rw [Node.numbers, List.forall_mem_append] at h
    refine tagged_tag (fields_keyed _ [("target", target.Layout, target.json),
      ("value", value.Layout, value.json)] ?_)
    simp only [List.forall_mem_cons]
    exact ⟨iht h.1, ihv h.2, List.forall_mem_nil _⟩
  | inspect inner ih => exact tagged_tag (ih h)

end TreeScript
