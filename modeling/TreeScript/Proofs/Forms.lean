import TreeScript.Dump
import TreeScript.Proofs.Texts

/-!
# Forms

A `Form` is what a dump is made of: words, quoted texts, and groups in parentheses that have a
word at their head. Every form says where it ends, a word by the character behind it
(`Form.WellFormed.append_inj`), so the form is read off the characters
(`Form.eq_of_chars_eq`).
-/

namespace TreeScript

/-- A part of a dump. -/
inductive Form where
  | word (chars : List Char)
  | text (s : String)
  | group (head : List Char) (parts : List Form)

namespace Form

mutual

/-- A form as it is written. -/
def chars : Form → List Char
  | .word cs => cs
  | .text s => (Text.quoted s).toList
  | .group head parts => '(' :: (head ++ charsAll parts)

/-- What stands behind the head of a group: each part after a space, and the parenthesis. -/
def charsAll : List Form → List Char
  | [] => [')']
  | part :: parts => ' ' :: (part.chars ++ charsAll parts)

end

theorem charsAll_eq (parts : List Form) :
    charsAll parts = (parts.flatMap fun part => ' ' :: part.chars) ++ [')'] := by
  induction parts with
  | nil => rfl
  | cons part parts ih =>
    rw [charsAll, ih, List.flatMap_cons, List.cons_append, List.cons_append, List.append_assoc]

/-! ## Words -/

/-- A character that ends no word and starts no other form. -/
def isPlain (c : Char) : Bool :=
  c ≠ ' ' && c ≠ '(' && c ≠ ')' && c ≠ '"'

def IsWord (cs : List Char) : Prop :=
  cs ≠ [] ∧ cs.all isPlain

/-- Where a word ends: at the end of the text, or before a character that is not plain. -/
def Ends (rest : List Char) : Prop :=
  ∀ c ∈ rest.head?, isPlain c = false

theorem takeWhile_isPlain {cs rest : List Char} (h : cs.all isPlain) (hrest : Ends rest) :
    (cs ++ rest).takeWhile isPlain = cs := by
  rw [List.takeWhile_append_of_pos (List.all_eq_true.1 h)]
  cases rest with
  | nil => exact List.append_nil cs
  | cons c rest =>
    rw [List.takeWhile_cons_of_neg (by rw [hrest c rfl]; exact Bool.false_ne_true),
      List.append_nil]

theorem word_append_inj {cs cs' rest rest' : List Char} (h : cs.all isPlain)
    (h' : cs'.all isPlain) (hrest : Ends rest) (hrest' : Ends rest')
    (heq : cs ++ rest = cs' ++ rest') : cs = cs' ∧ rest = rest' := by
  have hcs : cs = cs' := by
    rw [← takeWhile_isPlain h hrest, heq, takeWhile_isPlain h' hrest']
  subst hcs
  exact ⟨rfl, List.append_cancel_left heq⟩

theorem ends_charsAll (parts : List Form) (rest : List Char) : Ends (charsAll parts ++ rest) := by
  cases parts with
  | nil =>
    rintro c ⟨⟩
    rfl
  | cons part parts =>
    rintro c ⟨⟩
    rfl

/-! ## Reading -/

/-- The words of a form are words. -/
inductive WellFormed : Form → Prop where
  | word {cs : List Char} : IsWord cs → WellFormed (.word cs)
  | text (s : String) : WellFormed (.text s)
  | group {head : List Char} {parts : List Form} : IsWord head →
    (∀ part ∈ parts, WellFormed part) → WellFormed (.group head parts)

/-- The first character tells what a form is. -/
def Starts (f : Form) (c : Char) : Prop :=
  match f with
  | .word _ => isPlain c = true
  | .text _ => c = '"'
  | .group .. => c = '('

theorem WellFormed.exists_cons {f : Form} (hf : WellFormed f) :
    ∃ c cs, f.chars = c :: cs ∧ f.Starts c := by
  cases hf with
  | @word cs h =>
    obtain ⟨c, cs, rfl⟩ := List.exists_cons_of_ne_nil h.1
    exact ⟨c, cs, rfl, List.all_eq_true.1 h.2 c List.mem_cons_self⟩
  | text s => exact ⟨'"', _, Text.toList_quoted s, rfl⟩
  | group => exact ⟨'(', _, rfl, rfl⟩

/-- Forms that are read alike are of one kind. -/
theorem starts_of_append_eq {f g : Form} {rest rest' : List Char} (hf : WellFormed f)
    (hg : WellFormed g) (h : f.chars ++ rest = g.chars ++ rest') :
    ∃ c, f.Starts c ∧ g.Starts c := by
  obtain ⟨c, cs, hc, hstart⟩ := hf.exists_cons
  obtain ⟨c', cs', hc', hstart'⟩ := hg.exists_cons
  rw [hc, hc'] at h
  obtain ⟨rfl, -⟩ := List.cons.inj h
  exact ⟨c, hstart, hstart'⟩

/-- The parts of a group are read one by one up to the parenthesis. -/
theorem charsAll_append_inj {parts : List Form}
    (hread : ∀ part ∈ parts, ∀ {g : Form} {rest rest' : List Char}, WellFormed g → Ends rest →
      Ends rest' → part.chars ++ rest = g.chars ++ rest' → part = g ∧ rest = rest') :
    ∀ {parts' : List Form} {rest rest' : List Char}, (∀ g ∈ parts', WellFormed g) →
      charsAll parts ++ rest = charsAll parts' ++ rest' → parts = parts' ∧ rest = rest' := by
  induction parts with
  | nil =>
    intro parts' rest rest' hwf h
    cases parts' with
    | nil => exact ⟨rfl, (List.cons.inj h).2⟩
    | cons g parts' => exact absurd (List.cons.inj h).1 (by decide)
  | cons part parts ih =>
    intro parts' rest rest' hwf h
    cases parts' with
    | nil => exact absurd (List.cons.inj h).1 (by decide)
    | cons g parts' =>
      rw [charsAll, charsAll, List.cons_append, List.cons_append, List.append_assoc,
        List.append_assoc] at h
      rw [List.forall_mem_cons] at hwf
      obtain ⟨rfl, hafter⟩ := hread part List.mem_cons_self hwf.1 (ends_charsAll _ _)
        (ends_charsAll _ _) (List.cons.inj h).2
      obtain ⟨rfl, hrest⟩ := ih (fun p hp => hread p (List.mem_cons_of_mem _ hp)) hwf.2 hafter
      exact ⟨rfl, hrest⟩

/-- A form is read off any text in which it ends as a word does. -/
theorem WellFormed.append_inj {f : Form} (hf : WellFormed f) :
    ∀ {g : Form} {rest rest' : List Char}, WellFormed g → Ends rest → Ends rest' →
      f.chars ++ rest = g.chars ++ rest' → f = g ∧ rest = rest' := by
  induction hf with
  | @word cs hcs =>
    intro g rest rest' hg hrest hrest' h
    obtain ⟨c, hplain, hc⟩ := starts_of_append_eq (.word hcs) hg h
    cases hg with
    | word hcs' =>
      obtain ⟨rfl, hrest⟩ := word_append_inj hcs.2 hcs'.2 hrest hrest' h
      exact ⟨rfl, hrest⟩
    | text => cases hc; cases hplain
    | group => cases hc; cases hplain
  | text s =>
    intro g rest rest' hg hrest hrest' h
    obtain ⟨c, rfl, hc⟩ := starts_of_append_eq (.text s) hg h
    cases hg with
    | word => cases hc
    | text t =>
      obtain ⟨rfl, hrest⟩ := Text.quoted_append_inj h
      exact ⟨rfl, hrest⟩
    | group => cases hc
  | @group head parts hhead hparts ih =>
    intro g rest rest' hg hrest hrest' h
    obtain ⟨c, rfl, hc⟩ := starts_of_append_eq (.group hhead hparts) hg h
    cases hg with
    | word => cases hc
    | text => cases hc
    | @group head' parts' hhead' hparts' =>
      rw [chars, chars, List.cons_append, List.cons_append, List.append_assoc,
        List.append_assoc] at h
      obtain ⟨rfl, hafter⟩ := word_append_inj hhead.2 hhead'.2 (ends_charsAll _ _)
        (ends_charsAll _ _) (List.cons.inj h).2
      obtain ⟨rfl, hrest⟩ := charsAll_append_inj ih hparts' hafter
      exact ⟨rfl, hrest⟩

/-- Forms that are written alike are the same. -/
theorem eq_of_chars_eq {f g : Form} (hf : WellFormed f) (hg : WellFormed g)
    (h : f.chars = g.chars) : f = g := by
  have hnil : Ends [] := nofun
  exact (hf.append_inj hg hnil hnil (by rw [h])).1

/-- A group is its head and its parts between parentheses, with spaces between them. -/
theorem toList_parenthesized (head : String) {texts : List String} {parts : List Form}
    (h : texts.map String.toList = parts.map chars) :
    (parenthesized (head :: texts)).toList = (group head.toList parts).chars := by
  have hparts : (texts.flatMap fun text => " ".toList ++ text.toList) =
      parts.flatMap fun part => ' ' :: part.chars := by
    have hmap := congrArg (List.flatMap (' ' :: ·)) h
    rwa [List.flatMap_map, List.flatMap_map] at hmap
  rw [parenthesized, String.toList_append, String.toList_append, Text.toList_intercalate, hparts,
    chars, charsAll_eq]
  show '(' :: (head.toList ++ _ ++ [')']) = _
  rw [List.append_assoc]

end Form

end TreeScript
