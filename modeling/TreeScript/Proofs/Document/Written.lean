import TreeScript.Document.Tree
import TreeScript.Document.Writer
import TreeScript.Proofs.Document.Numerals
import TreeScript.Proofs.Document.Strings

/-!
# Readers on what was written

What the readers make of the marks that `object` and `tagged` write, piece by piece: a
string, a variant, the next member of an object, the next item of a list. Whatever
follows a piece is left over, and a piece that opens a bracket fails if none may be
opened.
-/

namespace TreeScript.Document

variable {α τ : Type} {bound : Nat} {s : List UInt8}

/-! ## Texts -/

/-- The members of an object after others, and its end. -/
def moreMembers : List (String × String) → List UInt8
  | [] => [Mark.objectEnd]
  | (key, value) :: members =>
    Mark.comma :: (bytes (quoted key) ++ Mark.colon :: (bytes value ++ moreMembers members))

/-- The items of a list after others, and its end. -/
def moreTexts : List String → List UInt8
  | [] => [Mark.listEnd]
  | text :: texts => Mark.comma :: (bytes text ++ moreTexts texts)

theorem bytes_intercalate_members (key value : String) : ∀ members : List (String × String),
    bytes (",".intercalate (((key, value) :: members).map fun (key, value) =>
      quoted key ++ ":" ++ value)) ++ [Mark.objectEnd] =
        bytes (quoted key) ++ Mark.colon :: (bytes value ++ moreMembers members) := by
  have hcolon : bytes ":" = [Mark.colon] := by decide
  have hcomma : bytes "," = [Mark.comma] := by decide
  intro members
  induction members generalizing key value with
  | nil => simp [bytes_append, hcolon, moreMembers]
  | cons member members ih =>
    obtain ⟨key', value'⟩ := member
    have hrest := ih key' value'
    rw [List.map_cons] at hrest
    rw [List.map_cons, List.map_cons, String.intercalate_cons_cons, bytes_append, bytes_append,
      List.append_assoc, List.append_assoc, hrest]
    simp [bytes_append, hcolon, hcomma, moreMembers]

theorem bytes_object (key value : String) (members : List (String × String)) :
    bytes (object ((key, value) :: members)) = Mark.objectStart ::
      (bytes (quoted key) ++ Mark.colon :: (bytes value ++ moreMembers members)) := by
  have hstart : bytes "\x7b" = [Mark.objectStart] := by decide
  have hend : bytes "\x7d" = [Mark.objectEnd] := by decide
  rw [← bytes_intercalate_members, object, bytes_append, bytes_append, hstart, hend]
  rfl

theorem bytes_tagged (name content : String) : bytes (tagged name content) = Mark.objectStart ::
    (bytes (quoted name) ++ Mark.colon :: (bytes content ++ [Mark.objectEnd])) :=
  bytes_object name content []

theorem bytes_intercalate_texts (text : String) : ∀ texts : List String,
    bytes (",".intercalate (text :: texts)) ++ [Mark.listEnd] = bytes text ++ moreTexts texts := by
  have hcomma : bytes "," = [Mark.comma] := by decide
  intro texts
  induction texts generalizing text with
  | nil => simp [moreTexts]
  | cons text' texts ih =>
    rw [String.intercalate_cons_cons, bytes_append, bytes_append, List.append_assoc,
      List.append_assoc, ih text', hcomma]
    rfl

theorem bytes_list_nil : bytes ("[" ++ ",".intercalate [] ++ "]") =
    [Mark.listStart, Mark.listEnd] := by
  decide

theorem bytes_list_cons (text : String) (texts : List String) :
    bytes ("[" ++ ",".intercalate (text :: texts) ++ "]") =
      Mark.listStart :: (bytes text ++ moreTexts texts) := by
  have hstart : bytes "[" = [Mark.listStart] := by decide
  have hend : bytes "]" = [Mark.listEnd] := by decide
  rw [← bytes_intercalate_texts, bytes_append, bytes_append, hstart, hend]
  rfl

/-! ## Strings and variants -/

theorem string_quoted (x : String) (h : (bytes (quoted x) ++ s).length < bound) :
    string bound (bytes (quoted x) ++ s) = .ok (x, s) := by
  obtain ⟨s', hbytes, htext⟩ := text_quoted x h
  rw [hbytes]
  exact htext

/-- The name alone stands for a variant without content. -/
theorem variant_quoted {known : List τ} {nameOf : τ → String} {bare : τ → Except Error α}
    {content : Option (τ → Reader α)} {v : τ} (hv : choose known nameOf (nameOf v) = .ok v)
    (h : (bytes (quoted (nameOf v)) ++ s).length < bound) :
    variant bound known nameOf bare content (bytes (quoted (nameOf v)) ++ s) =
      (bare v).map (·, s) := by
  obtain ⟨s', hbytes, htext⟩ := text_quoted _ h
  rw [hbytes]
  show (text bound s' >>= fun p => choose known nameOf p.1 >>= fun v =>
    bare v >>= fun r => pure (r, p.2)) = _
  rw [htext]
  show (choose known nameOf (nameOf v) >>= fun v => bare v >>= fun r => pure (r, s)) = _
  rw [hv]
  show (bare v >>= fun r => pure (r, s)) = _
  cases bare v <;> rfl

/-- A variant with content is read as its content is. -/
theorem variant_tagged {known : List τ} {nameOf : τ → String} {bare : τ → Except Error α}
    {content : τ → Reader α} {v : τ} {c : String} {r : Except Error α}
    (hv : choose known nameOf (nameOf v) = .ok v)
    (h : (bytes (tagged (nameOf v) c) ++ s).length < bound)
    (hcontent : (bytes c ++ Mark.objectEnd :: s).length < bound →
      content v (bytes c ++ Mark.objectEnd :: s) = r.map (·, Mark.objectEnd :: s)) :
    variant bound known nameOf bare (some content) (bytes (tagged (nameOf v) c) ++ s) =
      r.map (·, s) := by
  rw [bytes_tagged] at h ⊢
  simp only [List.cons_append, List.append_assoc, List.nil_append, List.length_cons] at h ⊢
  obtain ⟨s', hbytes, htext⟩ := text_quoted (nameOf v) (Nat.lt_of_succ_lt h)
  rw [hbytes]
  show (text bound s' >>= fun p => choose known nameOf p.1 >>= fun v => colon p.2 >>= fun s =>
    content v s >>= fun q => endOfVariant q.2 >>= fun s => pure (q.1, s)) = _
  rw [htext]
  show (choose known nameOf (nameOf v) >>= fun v =>
    content v (bytes c ++ Mark.objectEnd :: s) >>= fun q =>
      endOfVariant q.2 >>= fun s => pure (q.1, s)) = _
  rw [hv]
  show (content v _ >>= fun q => endOfVariant q.2 >>= fun s => pure (q.1, s)) = _
  rw [hcontent]
  · cases r <;> rfl
  · rw [List.length_append, List.length_cons] at h
    omega

/-- A variant with content needs a bracket. -/
theorem variant_tagged_none {known : List τ} {nameOf : τ → String} {bare : τ → Except Error α}
    (name c : String) :
    variant bound known nameOf bare none (bytes (tagged name c) ++ s) = .error .tooDeep := by
  rw [bytes_tagged]
  rfl

/-! ## Keys and items -/

theorem nextKey_first (key : String) (h : (bytes (quoted key) ++ s).length < bound) :
    nextKey bound true (bytes (quoted key) ++ s) = .ok (some key, s) := by
  obtain ⟨s', hbytes, htext⟩ := text_quoted key h
  rw [hbytes]
  show (text bound s' >>= fun p => pure (some p.1, p.2)) = _
  rw [htext]
  rfl

theorem nextKey_more (key : String) (h : (bytes (quoted key) ++ s).length < bound) :
    nextKey bound false (Mark.comma :: (bytes (quoted key) ++ s)) = .ok (some key, s) := by
  obtain ⟨s', hbytes, htext⟩ := text_quoted key h
  rw [hbytes]
  show (text bound s' >>= fun p => pure (some p.1, p.2)) = _
  rw [htext]
  rfl

end TreeScript.Document
