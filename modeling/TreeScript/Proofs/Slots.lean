import TreeScript.Scopes.Basic

/-!
# Slots

The slot of a name in a frame holds the value that the frame binds it to, if it
does. `Scopes.slot` counts the frames from the innermost one, which is frame
zero. Each operation on scopes is described by what it does to the slots:
`exists_slot_of_assign?` says that an assignment fills one slot that was full
before, in the first frame that has one. A lookup sees of this what
`get?_of_assign?` says, and fails where the assignment does
(`assign?_eq_none_iff`).
-/

namespace TreeScript.Scopes

/-- What frame `i` binds a name to, counted from the innermost frame. -/
def slot (s : Scopes) (i : Nat) (name : String) : Option Value :=
  s.frames[i]?.bind (·.get? name)

theorem slot_zero (s : Scopes) (name : String) : s.slot 0 name = s.innermost.get? name :=
  rfl

theorem one_le_depth (s : Scopes) : 1 ≤ s.depth :=
  Nat.le_add_left 1 s.enclosing.length

/-- Closing a scope drops frame zero, if there are others. -/
theorem slot_pop {s : Scopes} (h : 2 ≤ s.depth) (i : Nat) (name : String) :
    s.pop.slot i name = s.slot (i + 1) name := by
  obtain ⟨innermost, enclosing⟩ := s
  cases enclosing with
  | nil => simp [depth, frames] at h
  | cons frame rest => rfl

theorem depth_pop {s : Scopes} (h : 2 ≤ s.depth) : s.pop.depth + 1 = s.depth := by
  obtain ⟨innermost, enclosing⟩ := s
  cases enclosing with
  | nil => simp [depth, frames] at h
  | cons frame rest => rfl

/-- A definition fills a slot of frame zero. -/
theorem slot_define (s : Scopes) (name : String) (value : Value) (i : Nat) (x : String) :
    (s.define name value).slot i x =
      if i = 0 ∧ x = name then some value else s.slot i x := by
  cases i with
  | zero => simp [slot_zero, define]
  | succ i => simp [slot, frames, define]

/-- An assignment works on all frames alike. -/
theorem frames_assign? (s : Scopes) (name : String) (value : Value) :
    (s.assign? name value).map frames = rebind? name value s.frames := by
  unfold assign? frames
  by_cases h : s.innermost.binds name = true
  · rw [if_pos h, rebind?_cons_of_binds h]
    rfl
  · rw [if_neg h, rebind?_cons_of_not_binds (by simpa using h)]
    simp [Function.comp_def]

theorem assign?_cons (f : Frame) (s : Scopes) (name : String) (value : Value) :
    (⟨f, s.frames⟩ : Scopes).assign? name value =
      if f.binds name then some ⟨f.insert name value, s.frames⟩
      else (s.assign? name value).map fun t => ⟨f, t.frames⟩ := by
  show (if f.binds name then _ else (rebind? name value s.frames).map fun fs => _) = _
  rw [← frames_assign?, Option.map_map]
  rfl

/-- The frame that is rebound is the first that binds the name. -/
theorem exists_set_of_rebind? {name : String} {value : Value} :
    ∀ {frames frames' : List Frame}, rebind? name value frames = some frames' →
      ∃ i f, frames[i]? = some f ∧ f.binds name = true ∧
        (∀ j < i, frames[j]?.bind (·.get? name) = none) ∧
        frames' = frames.set i (f.insert name value)
  | [], _, h => by simp [rebind?] at h
  | frame :: frames, frames', h => by
    cases hb : frame.binds name with
    | true =>
      rw [rebind?_cons_of_binds hb, Option.some.injEq] at h
      exact ⟨0, frame, rfl, hb, by simp, h.symm⟩
    | false =>
      rw [rebind?_cons_of_not_binds hb, Option.map_eq_some_iff] at h
      obtain ⟨rest, hrest, rfl⟩ := h
      obtain ⟨i, f, hf, hbf, hfirst, rfl⟩ := exists_set_of_rebind? hrest
      refine ⟨i + 1, f, hf, hbf, fun j hj => ?_, rfl⟩
      cases j with
      | zero => simpa [Frame.binds] using hb
      | succ j => exact hfirst j (by omega)

/-- An assignment that succeeds fills one slot of its name that was full, the first
one from the innermost frame on. -/
theorem exists_slot_of_assign? {s t : Scopes} {name : String} {value : Value}
    (h : s.assign? name value = some t) :
    ∃ i, (s.slot i name).isSome ∧ (∀ j < i, s.slot j name = none) ∧ t.depth = s.depth ∧
      ∀ j x, t.slot j x = if j = i ∧ x = name then some value else s.slot j x := by
  have hframes : rebind? name value s.frames = some t.frames := by
    rw [← frames_assign?, h, Option.map_some]
  obtain ⟨i, f, hf, hb, hfirst, ht⟩ := exists_set_of_rebind? hframes
  refine ⟨i, by simpa [slot, hf, Frame.binds] using hb, hfirst, by simp [depth, ht], fun j x => ?_⟩
  obtain ⟨hi, rfl⟩ := List.getElem?_eq_some_iff.1 hf
  unfold slot
  rw [ht, List.getElem?_set]
  by_cases hj : i = j
  · subst hj
    simp [hi]
  · simp [hj, Ne.symm hj]

/-! ## Lookups -/

theorem get?_cons (f : Frame) (s : Scopes) (x : String) :
    (⟨f, s.frames⟩ : Scopes).get? x = (f.get? x).or (s.get? x) := by
  unfold get? frames
  rw [List.findSome?_cons]
  cases f.get? x <;> rfl

theorem findSome?_rebind? {name : String} {value : Value} (x : String) :
    ∀ {frames frames' : List Frame}, rebind? name value frames = some frames' →
      frames'.findSome? (·.get? x) =
        if x = name then some value else frames.findSome? (·.get? x)
  | [], _, h => by simp [rebind?] at h
  | frame :: frames, frames', h => by
    cases hb : frame.binds name with
    | true =>
      rw [rebind?_cons_of_binds hb, Option.some.injEq] at h
      subst h
      by_cases hx : x = name <;> simp [List.findSome?_cons, hx]
    | false =>
      rw [rebind?_cons_of_not_binds hb, Option.map_eq_some_iff] at h
      obtain ⟨rest, hrest, rfl⟩ := h
      have ih := findSome?_rebind? x hrest
      by_cases hx : x = name
      · subst hx
        have hnone : frame.get? x = none := by simpa [Frame.binds] using hb
        simp [hnone, ih]
      · simp [List.findSome?_cons, ih, hx]

theorem rebind?_eq_none_iff (name : String) (value : Value) :
    ∀ frames : List Frame, rebind? name value frames = none ↔
      frames.findSome? (·.get? name) = none
  | [] => by simp [rebind?]
  | frame :: frames => by
    cases hb : frame.binds name with
    | true =>
      obtain ⟨v, hv⟩ := Option.isSome_iff_exists.1 hb
      simp [rebind?_cons_of_binds hb, hv]
    | false =>
      have hnone : frame.get? name = none := by simpa [Frame.binds] using hb
      simp [rebind?_cons_of_not_binds hb, hnone, rebind?_eq_none_iff name value frames]

/-- An assignment changes the lookup of its own name and no other. -/
theorem get?_of_assign? {s t : Scopes} {name : String} {value : Value}
    (h : s.assign? name value = some t) (x : String) :
    t.get? x = if x = name then some value else s.get? x := by
  have hframes : rebind? name value s.frames = some t.frames := by
    rw [← frames_assign?, h, Option.map_some]
  exact findSome?_rebind? x hframes

/-- An assignment fails where a lookup does. -/
theorem assign?_eq_none_iff {s : Scopes} {name : String} {value : Value} :
    s.assign? name value = none ↔ s.get? name = none := by
  rw [← Option.map_eq_none_iff (f := frames), frames_assign?]
  exact rebind?_eq_none_iff name value s.frames

end TreeScript.Scopes
