import TreeScript.Proofs.Commuting

/-!
# Lookups and assignments

A lookup and an assignment search the stack each for itself, and stop at the same frame.
`Scopes.Finds s i x v` says that frame `i` is the innermost one that binds the name, and
`Scopes.Rebinds s i x v t` that the stacks differ in nothing but what this frame binds it to.
Lookups are given by the one (`Scopes.get?_eq_some_iff`), assignments by both
(`Scopes.assign?_eq_some_iff`), and a definition rebinds in frame zero whatever is found.

`Action.assign_agrees_get` says so of the operations of a run, with their errors. The stack is
any that has a frame at all, as every stack of a run does.
-/

namespace TreeScript

namespace Scopes

variable {s t : Scopes} {i : Nat} {x y : String} {v old : Value}

/-- Frame `i` is the innermost one that binds a name, and binds it to a value. -/
structure Finds (s : Scopes) (i : Nat) (x : String) (v : Value) : Prop where
  slot : s.slot i x = some v
  first : ∀ j < i, s.slot j x = none

/-- A name is bound to a value in frame `i` of the second stack. In all else it is the first
one. -/
structure Rebinds (s : Scopes) (i : Nat) (x : String) (v : Value) (t : Scopes) : Prop where
  depth : t.depth = s.depth
  slot : ∀ j y, t.slot j y = if j = i ∧ y = x then some v else s.slot j y

/-- A lookup stops at the innermost frame that binds the name. -/
theorem get?_eq_some_iff : s.get? x = some v ↔ ∃ i, s.Finds i x v := by
  unfold get?
  rw [List.findSome?_eq_some_iff]
  constructor
  · rintro ⟨inner, f, outer, hframes, hf, hinner⟩
    refine ⟨inner.length, ?_, fun j hj => ?_⟩
    · simp [Scopes.slot, hframes, hf]
    · rw [Scopes.slot, hframes, List.getElem?_append_left hj, List.getElem?_eq_getElem hj]
      exact hinner _ (List.getElem_mem hj)
  · rintro ⟨i, hslot, hfirst⟩
    obtain ⟨f, hf, hv⟩ := Option.bind_eq_some_iff.1 hslot
    obtain ⟨hi, rfl⟩ := List.getElem?_eq_some_iff.1 hf
    refine ⟨s.frames.take i, s.frames[i], s.frames.drop (i + 1), ?_, hv, fun g hg => ?_⟩
    · rw [← List.drop_eq_getElem_cons hi, List.take_append_drop]
    · obtain ⟨j, hj, rfl⟩ := List.mem_take_iff_getElem.1 hg
      have hnone := hfirst j (by omega)
      rwa [Scopes.slot, List.getElem?_eq_getElem] at hnone

/-- An innermost frame that binds a name is the only one. -/
theorem Finds.unique {i' : Nat} (h : s.Finds i x v) (h' : s.Finds i' x old) : i = i' := by
  rcases Nat.lt_trichotomy i i' with hlt | heq | hlt
  · have hnone := h'.first i hlt
    rw [h.slot] at hnone
    cases hnone
  · exact heq
  · have hnone := h.first i' hlt
    rw [h'.slot] at hnone
    cases hnone

/-- Another scope inside moves the frame on. -/
theorem Finds.push (h : s.Finds i x v) : s.push.Finds (i + 1) x v := by
  refine ⟨h.slot, fun j hj => ?_⟩
  cases j with
  | zero => rfl
  | succ j => exact h.first j (Nat.lt_of_succ_lt_succ hj)

theorem Finds.pop (h : s.Finds (i + 1) x v) (hdepth : 2 ≤ s.depth) : s.pop.Finds i x v :=
  ⟨(slot_pop hdepth i x).trans h.slot,
    fun j hj => (slot_pop hdepth j x).trans (h.first (j + 1) (Nat.succ_lt_succ hj))⟩

/-- Stacks that agree on a name find it in the same frame. -/
theorem AgreeOn.finds {S : Set String} (h : AgreeOn S s t) (hx : x ∈ S) (hs : s.Finds i x v) :
    t.Finds i x v :=
  ⟨(h.slot i x hx).symm.trans hs.slot, fun j hj => (h.slot j x hx).symm.trans (hs.first j hj)⟩

namespace Rebinds

/-- A name that is bound anew is found where it was. -/
theorem finds (h : s.Rebinds i x v t) (hs : s.Finds i x old) : t.Finds i x v := by
  refine ⟨(h.slot i x).trans (if_pos ⟨rfl, rfl⟩), fun j hj => (h.slot j x).trans ?_⟩
  rw [if_neg fun hjx => hj.ne hjx.1]
  exact hs.first j hj

theorem unique {t' : Scopes} (h : s.Rebinds i x v t) (h' : s.Rebinds i x v t') : t = t' :=
  ext_slot (h.depth.trans h'.depth.symm) fun j y => (h.slot j y).trans (h'.slot j y).symm

theorem define (s : Scopes) (x : String) (v : Value) : s.Rebinds 0 x v (s.define x v) :=
  ⟨rfl, slot_define s x v⟩

/-- Where the frame bound the name before, every frame binds the names that it did. -/
theorem isSome_slot (h : s.Rebinds i x v t) (hx : (s.slot i x).isSome) (j : Nat) (y : String) :
    (t.slot j y).isSome = (s.slot j y).isSome := by
  rw [h.slot]
  split
  · rename_i hjy
    rw [hjy.1, hjy.2, hx]
    rfl
  · rfl

end Rebinds

theorem exists_finds_of_assign? (h : s.assign? x v = some t) :
    ∃ i old, s.Finds i x old ∧ s.Rebinds i x v t := by
  obtain ⟨i, hfull, hfirst, hdepth, hslot⟩ := exists_slot_of_assign? h
  obtain ⟨old, hold⟩ := Option.isSome_iff_exists.1 hfull
  exact ⟨i, old, ⟨hold, hfirst⟩, hdepth, hslot⟩

/-- What a lookup finds can be assigned to, and is what the assignment rebinds. -/
theorem Finds.exists_assign (h : s.Finds i x old) (v : Value) :
    ∃ t, s.assign? x v = some t ∧ s.Rebinds i x v t := by
  cases ht : s.assign? x v with
  | none =>
    have hnone := assign?_eq_none_iff.1 ht
    rw [get?_eq_some_iff.2 ⟨i, h⟩] at hnone
    cases hnone
  | some t =>
    obtain ⟨i', old', h', hrebinds⟩ := exists_finds_of_assign? ht
    obtain rfl := h'.unique h
    exact ⟨t, rfl, hrebinds⟩

/-- An assignment rebinds a name where a lookup finds it. -/
theorem assign?_eq_some_iff :
    s.assign? x v = some t ↔ ∃ i old, s.Finds i x old ∧ s.Rebinds i x v t := by
  refine ⟨exists_finds_of_assign?, ?_⟩
  rintro ⟨i, old, hfinds, h⟩
  obtain ⟨u, hu, h'⟩ := hfinds.exists_assign v
  rw [h.unique h']
  exact hu

end Scopes

namespace Action

variable {α : Type}

/-- What an action ends in, unless it is cut off. -/
def ending (x : Action α) (m : Machine) : Option (Except RuntimeError α) :=
  (x m).map (·.1)

theorem get_of_some {m : Machine} {x : String} {v : Value} (h : m.scopes.get? x = some v) :
    get x m = some (.ok v, m) := by
  unfold get
  rw [h]
  rfl

theorem get_of_none {m : Machine} {x : String} (h : m.scopes.get? x = none) : get x m =
    some (.error (.undefinedVariable x),
      { m with journal := m.journal.note (.errorCreated (.undefinedVariable x)) }) := by
  unfold get
  rw [h]
  rfl

/-- A lookup ends in what the scopes have under the name. -/
theorem ending_get_congr {m m' : Machine} {x : String}
    (h : m'.scopes.get? x = m.scopes.get? x) : (get x).ending m' = (get x).ending m := by
  unfold ending
  cases hx : m.scopes.get? x with
  | none => rw [get_of_none hx, get_of_none (h.trans hx)]; rfl
  | some v => rw [get_of_some hx, get_of_some (h.trans hx)]; rfl

/-- An assignment succeeds where a lookup does, and then changes nothing but what the innermost
frame with the name binds it to. Otherwise it leaves the scopes alone and fails as the lookup
does. A definition changes what the innermost frame of all binds the name to. Either way the
name has the new value from then on, and other names have theirs. -/
theorem assign_agrees_get (m : Machine) {x y : String} (hne : y ≠ x) (v : Value) :
    ((∃ m', assign x v m = some (.ok (), m')) ↔ ∃ old m', get x m = some (.ok old, m')) ∧
    (∀ m', assign x v m = some (.ok (), m') →
      (∃ i old, get x m = some (.ok old, m) ∧ m.scopes.Finds i x old ∧
        m.scopes.Rebinds i x v m'.scopes ∧
        ∀ j z, (m'.scopes.slot j z).isSome = (m.scopes.slot j z).isSome) ∧
      get x m' = some (.ok v, m') ∧ (get y).ending m' = (get y).ending m) ∧
    (∀ e m', assign x v m = some (.error e, m') →
      m'.scopes = m.scopes ∧ get x m = some (.error e, m')) ∧
    ∃ m', define x v m = some (.ok (), m') ∧ m.scopes.Rebinds 0 x v m'.scopes ∧
      get x m' = some (.ok v, m') ∧ (get y).ending m' = (get y).ending m := by
  have hdefine : (m.scopes.define x v).get? x = some v ∧
      (m.scopes.define x v).get? y = m.scopes.get? y := by
    rw [Scopes.get?_define, Scopes.get?_define, if_pos rfl, if_neg hne]
    exact ⟨rfl, rfl⟩
  have hlast : ∃ m', define x v m = some (.ok (), m') ∧ m.scopes.Rebinds 0 x v m'.scopes ∧
      get x m' = some (.ok v, m') ∧ (get y).ending m' = (get y).ending m :=
    ⟨_, rfl, .define m.scopes x v, get_of_some hdefine.1, ending_get_congr hdefine.2⟩
  cases hassign : m.scopes.assign? x v with
  | none =>
    have hget := get_of_none (Scopes.assign?_eq_none_iff.1 hassign)
    have hfails : assign x v m = some (.error (.undefinedVariable x),
        { m with journal := m.journal.note (.errorCreated (.undefinedVariable x)) }) := by
      simp only [assign, hassign]
      rfl
    rw [hfails, hget]
    refine ⟨⟨?_, ?_⟩, ?_, ?_, hlast⟩
    · rintro ⟨m', h⟩
      cases h
    · rintro ⟨old, m', h⟩
      cases h
    · intro m' h
      cases h
    · intro e m' h
      cases h
      exact ⟨rfl, rfl⟩
  | some t =>
    obtain ⟨i, old, hfinds, hrebinds⟩ := Scopes.assign?_eq_some_iff.1 hassign
    have hget := get_of_some (Scopes.get?_eq_some_iff.2 ⟨i, hfinds⟩)
    have hruns : assign x v m = some (.ok (), { m with scopes := t }) := by
      simp only [assign, hassign]
    have hself := Scopes.get?_of_assign? hassign x
    have hother := Scopes.get?_of_assign? hassign y
    rw [if_pos rfl] at hself
    rw [if_neg hne] at hother
    have hfull := Option.isSome_of_eq_some hfinds.slot
    rw [hruns]
    refine ⟨⟨fun _ => ⟨old, m, hget⟩, fun _ => ⟨_, rfl⟩⟩, ?_, ?_, hlast⟩
    · intro m' h
      cases h
      exact ⟨⟨i, old, hget, hfinds, hrebinds, hrebinds.isSome_slot hfull⟩, get_of_some hself,
        ending_get_congr hother⟩
    · intro e m' h
      cases h

/-- A name that two of three frames bind, of which neither is the innermost. The assignment
goes to the one further in, and the definition to the innermost frame. -/
theorem assign_agrees_get_shadowed :
    let globals : Frame := (Frame.empty.insert "x" .unit).insert "y" .unit
    let m : Machine := ⟨⟨.empty, [Frame.empty.insert "x" (.boolean true), globals]⟩, .unlimited,
      .off⟩
    let m₁ : Machine := ⟨⟨.empty, [Frame.empty.insert "x" (.string "a"), globals]⟩, .unlimited,
      .off⟩
    "y" ≠ "x" ∧ assign "x" (.string "a") m = some (.ok (), m₁) ∧
      m.scopes.Finds 1 "x" (.boolean true) ∧ m.scopes.Rebinds 1 "x" (.string "a") m₁.scopes ∧
      (∀ j z, (m₁.scopes.slot j z).isSome = (m.scopes.slot j z).isSome) ∧
      get "x" m₁ = some (.ok (.string "a"), m₁) ∧ (get "y").ending m₁ = (get "y").ending m ∧
      ∃ m₂, define "x" (.string "a") m = some (.ok (), m₂) ∧
        m.scopes.Rebinds 0 "x" (.string "a") m₂.scopes := by
  intro globals m m₁
  have hne : "y" ≠ "x" := by decide
  have hassign : assign "x" (.string "a") m = some (.ok (), m₁) := by cbv
  have hfinds : m.scopes.Finds 1 "x" (.boolean true) :=
    ⟨by cbv, fun j hj => by obtain rfl := Nat.lt_one_iff.1 hj; rfl⟩
  obtain ⟨-, hok, -, m₂, hdefine, hrebinds₂, -⟩ := assign_agrees_get m hne (.string "a")
  obtain ⟨⟨i, old, -, hfinds', hrebinds, hnames⟩, hself, hother⟩ := hok m₁ hassign
  obtain rfl := hfinds.unique hfinds'
  exact ⟨hne, hassign, hfinds, hrebinds, hnames, hself, hother, m₂, hdefine, hrebinds₂⟩

end Action

end TreeScript
