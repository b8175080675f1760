import TreeScript.Proofs.Forms
import TreeScript.Proofs.Names
import TreeScript.Proofs.Number.Display

/-!
# Dumps that are read back

A dump determines the tree, if its names are plain (`Node.eq_of_dump_eq`). It is the form of the
tree as it is written (`Node.toList_dump`), and the tree is read off the form
(`Node.eq_of_form_eq`): the head of a group tells the kind of node, and a word is a literal or,
if it is a plain name, an identifier (`PlainName.ne_text`).
-/

namespace TreeScript

namespace Node

open Form

mutual

/-- The form of a tree. -/
def form : Node → Form
  | .literal (.string s) => .text s
  | .literal value => .word value.text.toList
  | .print inner => .group "print".toList [form inner]
  | .binary op left right => .group op.symbol.toList [form left, form right]
  | .ifThen condition body => .group "if".toList [form condition, form body]
  | .ifElse condition body otherwise =>
    .group "if".toList [form condition, form body, form otherwise]
  | .whileLoop condition body => .group "while".toList [form condition, form body]
  | .block nodes => .group "block".toList (formAll nodes)
  | .var name => .group "var".toList [.word name.toList]
  | .identifier name => .word name.toList
  | .assign target value => .group "=".toList [form target, form value]
  | .inspect inner => .group "debug".toList [form inner]

def formAll : List Node → List Form
  | [] => []
  | node :: nodes => form node :: formAll nodes

end

theorem formAll_eq_map (nodes : List Node) : formAll nodes = nodes.map form := by
  induction nodes with
  | nil => rfl
  | cons node nodes ih => rw [formAll, ih, List.map_cons]

theorem dumpAll_eq_map (nodes : List Node) : dumpAll nodes = nodes.map dump := by
  induction nodes with
  | nil => rfl
  | cons node nodes ih => rw [dumpAll, ih, List.map_cons]

/-- A dump is the form of the tree as it is written. -/
theorem toList_dump (n : Node) : n.dump.toList = n.form.chars := by
  induction n with
  | literal value => cases value <;> rfl
  | print inner ih | inspect inner ih =>
    simp only [dump, form]
    exact toList_parenthesized _ (by simp [ih])
  | binary op left right ihl ihr =>
    simp only [dump, form]
    exact toList_parenthesized _ (by simp [ihl, ihr])
  | ifThen test body iht ihb | whileLoop test body iht ihb | assign target value iht ihb =>
    simp only [dump, form]
    exact toList_parenthesized _ (by simp [iht, ihb])
  | ifElse test body otherwise iht ihb iho =>
    simp only [dump, form]
    exact toList_parenthesized _ (by simp [iht, ihb, iho])
  | block nodes ih =>
    simp only [dump, form, dumpAll_eq_map, formAll_eq_map]
    refine toList_parenthesized _ ?_
    rw [List.map_map, List.map_map]
    exact List.map_congr_left ih
  | var name =>
    simp only [dump, form]
    exact toList_parenthesized _ rfl
  | identifier name => rfl

end Node

/-! ## Words in dumps -/

/-- A name of letters, digits and underscores that looks like no literal. -/
structure PlainName (name : String) : Prop where
  starts : ∃ c cs, name.toList = c :: cs ∧ (c.isAlpha ∨ c = '_')
  letters : ∀ c ∈ name.toList, c.isAlphanum ∨ c = '_'
  free : name ∉ ["true", "false", "none", "inf", "NaN"]

namespace Form

theorem isPlain_iff {c : Char} : isPlain c = true ↔ c ∉ [' ', '(', ')', '"'] := by
  simp [isPlain, and_assoc]

theorem isPlain_of_isAlphanum {c : Char} (h : c.isAlphanum) : isPlain c = true := by
  refine isPlain_iff.2 fun hmem => ?_
  fin_cases hmem <;> cases h

theorem isPlain_of_isDigit {c : Char} (h : c.isDigit) : isPlain c = true :=
  isPlain_of_isAlphanum (by simp [Char.isAlphanum, h])

theorem isWord_name {name : String} (h : PlainName name) : IsWord name.toList := by
  obtain ⟨c, cs, hcs, -⟩ := h.starts
  refine ⟨by rw [hcs]; exact List.cons_ne_nil _ _, List.all_eq_true.2 fun c hc => ?_⟩
  obtain hc | rfl := h.letters c hc
  · exact isPlain_of_isAlphanum hc
  · rfl

theorem isWord_number (x : Float) : IsWord (Number.Style.display.text x).toList := by
  obtain ⟨p, -, h⟩ | ⟨h, -⟩ | ⟨h, -⟩ | ⟨h, -⟩ := Number.display_text_cases x
  · rw [h]
    constructor
    · intro hnil
      obtain ⟨c, hc, -⟩ := p.exists_isDigit_display
      rw [hnil] at hc
      cases hc
    · refine List.all_eq_true.2 fun c hc => ?_
      obtain hdigit | rfl | rfl := p.forall_mem_display c hc
      · exact isPlain_of_isDigit hdigit
      · rfl
      · rfl
  all_goals
    rw [h]
    exact ⟨List.cons_ne_nil _ _, rfl⟩

theorem isWord_symbol (op : Operator) : IsWord op.symbol.toList := by
  rcases op with (_ | _ | _ | _) | (_ | _ | _ | _) | _ | _ | (_ | _) <;>
    exact ⟨List.cons_ne_nil _ _, rfl⟩

end Form

namespace Value

/-- Numbers are printed as no other literal is. -/
theorem number_text_ne (x : Float) {word : String} (hword : word ∈ ["true", "false", "none"]) :
    (number x).text ≠ word := by
  obtain ⟨p, -, h⟩ | ⟨h, -⟩ | ⟨h, -⟩ | ⟨h, -⟩ := Number.display_text_cases x
  · show Number.Style.display.text x ≠ word
    rw [h]
    refine p.display_ne_of_no_digits ?_
    fin_cases hword <;> rfl
  all_goals
    show Number.Style.display.text x ≠ word
    rw [h]
    fin_cases hword <;> decide

/-- Literals other than strings that are printed alike are the same. -/
theorem text_inj {v w : Value} (hv : v.kind ≠ .string) (hw : w.kind ≠ .string)
    (h : v.text = w.text) : v = w := by
  cases v with
  | string => exact absurd rfl hv
  | number x =>
    cases w with
    | string => exact absurd rfl hw
    | number y => rw [Number.display_text_inj h]
    | boolean b => exact absurd h (number_text_ne x (by cases b <;> decide))
    | unit => exact absurd h (number_text_ne x (by decide))
  | boolean b =>
    cases w with
    | string => exact absurd rfl hw
    | number y => exact absurd h.symm (number_text_ne y (by cases b <;> decide))
    | boolean b' => cases b <;> cases b' <;> first | rfl | exact absurd h (by decide)
    | unit => cases b <;> exact absurd h (by decide)
  | unit =>
    cases w with
    | string => exact absurd rfl hw
    | number y => exact absurd h.symm (number_text_ne y (by decide))
    | boolean b => cases b <;> exact absurd h (by decide)
    | unit => rfl

end Value

theorem not_isAlpha_of_isDigit {c : Char} (h : c.isDigit) : ¬(c.isAlpha ∨ c = '_') := by
  rintro (halpha | rfl)
  · have hnine : '9'.val.toNat = 57 := rfl
    have hupper : 'A'.val.toNat = 65 := rfl
    have hlower : 'a'.val.toNat = 97 := rfl
    simp only [Char.isDigit, Char.isAlpha, Char.isUpper, Char.isLower, Bool.and_eq_true,
      Bool.or_eq_true, decide_eq_true_eq, ge_iff_le, UInt32.le_iff_toNat_le] at h halpha
    omega
  · cases h

/-- A plain name is not printed as a literal. -/
theorem PlainName.ne_text {name : String} (h : PlainName name) {v : Value}
    (hv : v.kind ≠ .string) : name ≠ v.text := by
  rintro rfl
  have hfree : ∀ word ∈ ["true", "false", "none", "inf", "NaN"], v.text ≠ word := by
    rintro word hword rfl
    exact h.free hword
  cases v with
  | string => exact hv rfl
  | boolean b => cases b <;> exact hfree _ (by decide) rfl
  | unit => exact hfree _ (by decide) rfl
  | number x =>
    obtain ⟨c, cs, hcs, hc⟩ := h.starts
    obtain ⟨p, -, htext⟩ | ⟨htext, -⟩ | ⟨htext, -⟩ | ⟨htext, -⟩ := Number.display_text_cases x
    · have hmem : c ∈ (Number.Style.display.finiteText p).toList := by
        rw [← htext, show (Number.Style.display.text x).toList = _ from hcs]
        exact List.mem_cons_self
      obtain hdigit | rfl | rfl := p.forall_mem_display c hmem
      · exact not_isAlpha_of_isDigit hdigit hc
      · exact absurd hc (by decide)
      · exact absurd hc (by decide)
    · exact hfree "NaN" (by decide) htext
    · exact hfree "inf" (by decide) htext
    · rw [show (Value.number x).text = _ from htext] at hcs
      obtain ⟨rfl, -⟩ := List.cons.inj hcs
      exact absurd hc (by decide)

/-! ## Trees -/

namespace Node

open Form

theorem wellFormed_form {n : Node} (h : ∀ x ∈ n.names, PlainName x) : WellFormed n.form := by
  have hword : ∀ w ∈ ["print", "if", "while", "block", "var", "=", "debug", "true", "false",
      "none"], IsWord w.toList := by
    intro w hw
    fin_cases hw <;> exact ⟨List.cons_ne_nil _ _, rfl⟩
  induction n with
  | literal value =>
    cases value with
    | number x => exact .word (isWord_number x)
    | boolean b => cases b <;> exact .word (hword _ (by decide))
    | string s => exact .text s
    | unit => exact .word (hword _ (by decide))
  | print inner ih | inspect inner ih =>
    simp only [form]
    exact .group (hword _ (by decide)) (by simpa using ih h)
  | binary op left right ihl ihr =>
    simp only [names, List.forall_mem_append] at h
    simp only [form]
    exact .group (isWord_symbol op) (by simpa using ⟨ihl h.1, ihr h.2⟩)
  | ifThen test body iht ihb | whileLoop test body iht ihb | assign target value iht ihb =>
    simp only [names, List.forall_mem_append] at h
    simp only [form]
    exact .group (hword _ (by decide)) (by simpa using ⟨iht h.1, ihb h.2⟩)
  | ifElse test body otherwise iht ihb iho =>
    simp only [names, List.forall_mem_append] at h
    simp only [form]
    exact .group (hword _ (by decide)) (by simpa using ⟨iht h.1.1, ihb h.1.2, iho h.2⟩)
  | block nodes ih =>
    simp only [names, namesOfAll_eq_flatMap] at h
    simp only [form, formAll_eq_map]
    refine .group (hword _ (by decide)) fun part hpart => ?_
    obtain ⟨node, hnode, rfl⟩ := List.mem_map.1 hpart
    exact ih node hnode fun x hx => h x (List.mem_flatMap_of_mem hnode hx)
  | var name =>
    simp only [form]
    exact .group (hword _ (by decide))
      (by simpa using WellFormed.word (isWord_name (h name (List.mem_singleton_self _))))
  | identifier name => exact .word (isWord_name (h name (List.mem_singleton_self _)))

theorem symbol_inj {op op' : Operator} (h : op.symbol = op'.symbol) : op = op' := by
  rcases op with (_ | _ | _ | _) | (_ | _ | _ | _) | _ | _ | (_ | _) <;>
    rcases op' with (_ | _ | _ | _) | (_ | _ | _ | _) | _ | _ | (_ | _) <;>
    first | rfl | exact absurd h (by decide)

/-- The kind of node that a head belongs to. -/
def kindOfHead (head : String) : Kind :=
  match head with
  | "print" => .print
  | "if" => .conditional
  | "while" => .whileLoop
  | "block" => .block
  | "var" => .var
  | "=" => .assign
  | "debug" => .inspect
  | _ => .binary

theorem kindOfHead_symbol (op : Operator) : kindOfHead op.symbol = .binary := by
  rcases op with (_ | _ | _ | _) | (_ | _ | _ | _) | _ | _ | (_ | _) <;> rfl

theorem form_literal_ne_group (v : Value) (head : List Char) (parts : List Form) :
    (literal v).form ≠ .group head parts := by
  cases v <;> exact nofun

/-- The head of a group tells the kind of node. -/
theorem kind_of_form {n : Node} {head : String} {parts : List Form}
    (h : n.form = .group head.toList parts) : n.kind = kindOfHead head := by
  cases n with
  | literal v => exact absurd h (form_literal_ne_group v _ _)
  | identifier name => cases h
  | binary op left right =>
    rw [← String.toList_inj.1 (group.inj h).1, kindOfHead_symbol]
    rfl
  | _ =>
    rw [← String.toList_inj.1 (group.inj h).1]
    rfl

theorem literal_inj {v w : Value} (h : (literal v).form = (literal w).form) : v = w := by
  cases v with
  | string s =>
    cases w with
    | string t => rw [text.inj h]
    | _ => cases h
  | _ =>
    cases w with
    | string t => cases h
    | _ => exact Value.text_inj nofun nofun (String.toList_inj.1 (word.inj h))

/-- A literal is not read as an identifier. -/
theorem form_literal_ne_identifier (v : Value) {name : String} (h : PlainName name) :
    (literal v).form ≠ (identifier name).form := by
  intro heq
  cases v with
  | string s => cases heq
  | _ => exact h.ne_text (by nofun) (String.toList_inj.1 (word.inj heq)).symm

/-- Sequences are read off their forms, if each node is. -/
theorem eq_of_map_form_eq {nodes nodes' : List Node}
    (hread : ∀ n ∈ nodes, ∀ n' ∈ nodes', n.form = n'.form → n = n')
    (h : nodes.map form = nodes'.map form) : nodes = nodes' := by
  induction nodes generalizing nodes' with
  | nil => exact (List.map_eq_nil_iff.1 h.symm).symm
  | cons n nodes ih =>
    obtain ⟨n', nodes', rfl, hn, hnodes⟩ := List.map_eq_cons_iff.1 h.symm
    rw [hread n List.mem_cons_self n' List.mem_cons_self hn.symm,
      ih (fun m hm m' hm' => hread m (List.mem_cons_of_mem _ hm) m' (List.mem_cons_of_mem _ hm'))
        hnodes.symm]

/-- The tree is read off its form. The induction is on one tree, and the head of its form leaves
one kind for the other. -/
theorem eq_of_form_eq {a : Node} : ∀ {b : Node}, (∀ x ∈ a.names, PlainName x) →
    (∀ x ∈ b.names, PlainName x) → a.form = b.form → a = b := by
  induction a with
  | literal v =>
    intro b ha hb h
    cases b with
    | literal w => rw [literal_inj h]
    | identifier name =>
      exact absurd h (form_literal_ne_identifier v (hb name (List.mem_singleton_self _)))
    | _ => exact absurd h (form_literal_ne_group v _ _)
  | identifier name =>
    intro b ha hb h
    cases b with
    | identifier other => rw [String.toList_inj.1 (word.inj h)]
    | literal w =>
      exact absurd h.symm (form_literal_ne_identifier w (ha name (List.mem_singleton_self _)))
    | _ => cases h
  | var name =>
    intro b ha hb h
    have hkind : b.kind = .var := kind_of_form h.symm
    cases b with
    | var other =>
      simp only [form, group.injEq, List.cons.injEq, word.injEq, true_and, and_true] at h
      rw [String.toList_inj.1 h]
    | _ => cases hkind
  | print inner ih =>
    intro b ha hb h
    have hkind : b.kind = .print := kind_of_form h.symm
    cases b with
    | print other =>
      simp only [form, group.injEq, List.cons.injEq, true_and, and_true] at h
      rw [ih ha (b := other) hb h]
    | _ => cases hkind
  | inspect inner ih =>
    intro b ha hb h
    have hkind : b.kind = .inspect := kind_of_form h.symm
    cases b with
    | inspect other =>
      simp only [form, group.injEq, List.cons.injEq, true_and, and_true] at h
      rw [ih ha (b := other) hb h]
    | _ => cases hkind
  | binary op left right ihl ihr =>
    intro b ha hb h
    have hkind : b.kind = .binary := by rw [kind_of_form h.symm, kindOfHead_symbol]
    cases b with
    | binary op' left' right' =>
      simp only [names, List.forall_mem_append] at ha hb
      simp only [form, group.injEq, List.cons.injEq, and_true] at h
      rw [symbol_inj (String.toList_inj.1 h.1), ihl ha.1 hb.1 h.2.1, ihr ha.2 hb.2 h.2.2]
    | _ => cases hkind
  | ifThen test body iht ihb =>
    intro b ha hb h
    have hkind : b.kind = .conditional := kind_of_form h.symm
    cases b with
    | ifThen test' body' =>
      simp only [names, List.forall_mem_append] at ha hb
      simp only [form, group.injEq, List.cons.injEq, true_and, and_true] at h
      rw [iht ha.1 hb.1 h.1, ihb ha.2 hb.2 h.2]
    | ifElse => exact absurd (congrArg List.length (group.inj h).2) (by simp)
    | _ => cases hkind
  | ifElse test body otherwise iht ihb iho =>
    intro b ha hb h
    have hkind : b.kind = .conditional := kind_of_form h.symm
    cases b with
    | ifElse test' body' otherwise' =>
      simp only [names, List.forall_mem_append] at ha hb
      simp only [form, group.injEq, List.cons.injEq, true_and, and_true] at h
      rw [iht ha.1.1 hb.1.1 h.1, ihb ha.1.2 hb.1.2 h.2.1, iho ha.2 hb.2 h.2.2]
    | ifThen => exact absurd (congrArg List.length (group.inj h).2) (by simp)
    | _ => cases hkind
  | whileLoop test body iht ihb =>
    intro b ha hb h
    have hkind : b.kind = .whileLoop := kind_of_form h.symm
    cases b with
    | whileLoop test' body' =>
      simp only [names, List.forall_mem_append] at ha hb
      simp only [form, group.injEq, List.cons.injEq, true_and, and_true] at h
      rw [iht ha.1 hb.1 h.1, ihb ha.2 hb.2 h.2]
    | _ => cases hkind
  | assign target value iht ihv =>
    intro b ha hb h
    have hkind : b.kind = .assign := kind_of_form h.symm
    cases b with
    | assign target' value' =>
      simp only [names, List.forall_mem_append] at ha hb
      simp only [form, group.injEq, List.cons.injEq, true_and, and_true] at h
      rw [iht ha.1 hb.1 h.1, ihv ha.2 hb.2 h.2]
    | _ => cases hkind
  | block nodes ih =>
    intro b ha hb h
    have hkind : b.kind = .block := kind_of_form h.symm
    cases b with
    | block nodes' =>
      simp only [names, namesOfAll_eq_flatMap] at ha hb
      simp only [form, formAll_eq_map, group.injEq, true_and] at h
      rw [eq_of_map_form_eq (fun n hn n' hn' => ih n hn
        (fun x hx => ha x (List.mem_flatMap_of_mem hn hx))
        fun x hx => hb x (List.mem_flatMap_of_mem hn' hx)) h]
    | _ => cases hkind

/-- Trees with plain names that are dumped alike are the same. A `Float` that is `NaN` is one
number, whatever bits it was made from. -/
theorem eq_of_dump_eq {a b : Node} (ha : ∀ x ∈ a.names, PlainName x)
    (hb : ∀ x ∈ b.names, PlainName x) (h : a.dump = b.dump) : a = b := by
  have hchars : a.form.chars = b.form.chars := by rw [← toList_dump, ← toList_dump, h]
  exact eq_of_form_eq ha hb
    (Form.eq_of_chars_eq (wellFormed_form ha) (wellFormed_form hb) hchars)

/-- A string that holds what a dump is made of, beside a `NaN` of two makes. -/
theorem eq_of_dump_eq_quoted :
    let tree : UInt64 → Node := fun bits => .block [.var "x_1", .ifThen (.literal (.boolean true))
      (.binary (.arithmetic .subtract) (.literal (.string "a\" (x_1)\x7f"))
        (.literal (.number (.ofBits bits))))]
    (∀ bits, ∀ x ∈ (tree bits).names, PlainName x) ∧
      (tree 0x7ff8000000000000).dump = (tree 0xfff8000000000001).dump ∧
      (tree 0x7ff8000000000000).dump =
        "(block (var x_1) (if true (- \"a\\\" (x_1)\\u\x7b7f\x7d\" NaN)))" ∧
      tree 0x7ff8000000000000 = tree 0xfff8000000000001 := by
  intro tree
  have hname : PlainName "x_1" := ⟨⟨_, _, rfl, .inl rfl⟩, by simp, by decide⟩
  have hnames : ∀ bits, ∀ x ∈ (tree bits).names, PlainName x := fun bits =>
    List.forall_mem_singleton.2 hname
  have hdump : (tree 0x7ff8000000000000).dump = (tree 0xfff8000000000001).dump := by
    decide +kernel
  exact ⟨hnames, hdump, by decide +kernel, eq_of_dump_eq (hnames _) (hnames _) hdump⟩

end Node

end TreeScript
