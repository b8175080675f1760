import Mathlib.Data.List.Basic
import TreeScript.Text.Quoted

/-!
# Joined and quoted texts

What `String.intercalate` joins is a text, and then each further one after a separator
(`toList_intercalate`). Quoted text can be read back from any text that it stands in front of
(`quoted_append_inj`): the closing quote is the first one that is not escaped, and
`readChar` gives the character of an escape and what follows it
(`readChar_escapeChar`).
-/

namespace TreeScript.Text

theorem toList_intercalate (sep text : String) (texts : List String) :
    (sep.intercalate (text :: texts)).toList =
      text.toList ++ texts.flatMap fun text => sep.toList ++ text.toList := by
  induction texts generalizing text with
  | nil => simp
  | cons text' texts ih =>
    rw [String.intercalate_cons_cons, String.toList_append, String.toList_append, ih]
    simp

/-! ## Code points -/

/-- The value of a digit to base sixteen. -/
def hexValue (c : Char) : Nat :=
  if c.isDigit then c.toNat - 48 else c.toNat - 87

def readHex (cs : List Char) : Nat :=
  cs.foldl (fun n c => 16 * n + hexValue c) 0

theorem hexValue_digitChar : ∀ k < 16, hexValue (Nat.digitChar k) = k := by
  decide

theorem digitChar_ne_brace : ∀ k < 16, Nat.digitChar k ≠ '\x7d' := by
  decide

theorem readHex_hexDigits (n : Nat) : readHex (hexDigits n) = n := by
  unfold hexDigits
  induction n using Nat.strongRecOn with
  | ind n ih =>
    rw [Nat.toDigits_eq_if (by omega)]
    split
    · rename_i h
      show 16 * 0 + hexValue (Nat.digitChar n) = n
      rw [hexValue_digitChar n h]
      omega
    · have hfront := ih (n / 16) (by omega)
      have hlast := hexValue_digitChar (n % 16) (by omega)
      unfold readHex at hfront ⊢
      rw [List.foldl_append, hfront, List.foldl_cons, List.foldl_nil, hlast]
      omega

theorem brace_not_mem_hexDigits (n : Nat) : '\x7d' ∉ hexDigits n := by
  unfold hexDigits
  induction n using Nat.strongRecOn with
  | ind n ih =>
    rw [Nat.toDigits_eq_if (by omega)]
    split
    · rename_i h
      exact fun hmem => digitChar_ne_brace n h (List.mem_singleton.1 hmem).symm
    · intro hmem
      rcases List.mem_append.1 hmem with hmem | hmem
      · exact ih (n / 16) (by omega) hmem
      · exact digitChar_ne_brace (n % 16) (by omega) (List.mem_singleton.1 hmem).symm

/-! ## Escapes -/

/-- The character that a letter stands for after a backslash. -/
def shortEscape (c : Char) : Char :=
  if c = '0' then '\x00' else if c = 't' then '\t' else if c = 'n' then '\n'
  else if c = 'r' then '\r' else c

/-- Reads what follows a backslash: a letter, or a code point in braces. -/
def readEscape : List Char → Option (Char × List Char)
  | [] => none
  | c :: cs =>
    if c = 'u' then
      some (Char.ofNat (readHex (cs.tail.takeWhile (· ≠ '\x7d'))),
        (cs.dropWhile (· ≠ '\x7d')).tail)
    else some (shortEscape c, cs)

/-- Reads one character of quoted text. There is none at the closing quote. -/
def readChar : List Char → Option (Char × List Char)
  | [] => none
  | c :: cs =>
    if c = '\\' then readEscape cs else if c = '"' then none else some (c, cs)

theorem readEscape_hexDigits (n : Nat) (rest : List Char) :
    readEscape ('u' :: '\x7b' :: (hexDigits n ++ '\x7d' :: rest)) = some (Char.ofNat n, rest) := by
  have hkeep : ∀ c ∈ hexDigits n, decide (c ≠ '\x7d') = true := by
    intro c hc
    refine decide_eq_true ?_
    rintro rfl
    exact brace_not_mem_hexDigits n hc
  have htake : (hexDigits n ++ '\x7d' :: rest).takeWhile (· ≠ '\x7d') = hexDigits n := by
    rw [List.takeWhile_append_of_pos hkeep, List.takeWhile_cons_of_neg (by simp),
      List.append_nil]
  have hdrop : ('\x7b' :: (hexDigits n ++ '\x7d' :: rest)).dropWhile (· ≠ '\x7d') =
      '\x7d' :: rest := by
    rw [List.dropWhile_cons_of_pos (by decide), List.dropWhile_append_of_pos hkeep,
      List.dropWhile_cons_of_neg (by simp)]
  rw [readEscape, if_pos rfl, List.tail_cons, htake, hdrop, readHex_hexDigits, List.tail_cons]

/-- A character is read back from its escape. -/
theorem readChar_escapeChar (c : Char) (rest : List Char) :
    readChar (escapeChar c ++ rest) = some (c, rest) := by
  unfold escapeChar
  split
  · rfl
  · rfl
  · rfl
  · rfl
  · rfl
  · rfl
  · rename_i hquote hbackslash
    split
    · have hhex := readEscape_hexDigits c.toNat rest
      rw [Char.ofNat_toNat] at hhex
      rw [← hhex]
      simp [readChar]
    · rw [List.singleton_append, readChar, if_neg hbackslash, if_neg hquote]

/-- Where the escapes of two texts stand before closing quotes, the texts are the same, and so
is what follows. -/
theorem escapes_append_inj : ∀ {s t r r' : List Char},
    s.flatMap escapeChar ++ '"' :: r = t.flatMap escapeChar ++ '"' :: r' → s = t ∧ r = r'
  | [], [], r, r', h => ⟨rfl, (List.cons.inj h).2⟩
  | [], c :: t, r, r', h => by
    have hread := congrArg readChar h
    rw [List.flatMap_cons, List.append_assoc, readChar_escapeChar] at hread
    cases hread
  | c :: s, [], r, r', h => by
    have hread := congrArg readChar h
    rw [List.flatMap_cons, List.append_assoc, readChar_escapeChar] at hread
    cases hread
  | c :: s, c' :: t, r, r', h => by
    have hread := congrArg readChar h
    rw [List.flatMap_cons, List.flatMap_cons, List.append_assoc, List.append_assoc,
      readChar_escapeChar, readChar_escapeChar, Option.some.injEq, Prod.mk.injEq] at hread
    obtain ⟨rfl, hrest⟩ := hread
    obtain ⟨rfl, hr⟩ := escapes_append_inj hrest
    exact ⟨rfl, hr⟩

theorem toList_quoted (s : String) :
    (quoted s).toList = '"' :: (s.toList.flatMap escapeChar ++ ['"']) := by
  unfold quoted
  rw [String.toList_ofList]
  rfl

/-- Quoted text says where it ends. -/
theorem quoted_append_inj {s t : String} {r r' : List Char}
    (h : (quoted s).toList ++ r = (quoted t).toList ++ r') : s = t ∧ r = r' := by
  rw [toList_quoted, toList_quoted, List.cons_append, List.cons_append, List.append_assoc,
    List.append_assoc] at h
  obtain ⟨htext, hr⟩ := escapes_append_inj (List.cons.inj h).2
  exact ⟨String.toList_inj.1 htext, hr⟩

end TreeScript.Text
