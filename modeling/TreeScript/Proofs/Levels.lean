import TreeScript.Proofs.Calls
import TreeScript.Proofs.Slots

/-!
# Levels of the stack

Seen from the globals, a frame keeps its level while scopes are opened and closed above it.
`Scopes.boundAt` is what the frame at a level binds a name to. `Scopes.Keeps assigns` relates
two stacks if all frames but the innermost bind the names that they did, and each new value
there goes back to a moment of an assignment at which no frame above bound the name. Opening a
scope makes the innermost frame one of these (`Scopes.Keeps.enclosing`).

`Node.Assigns` tells of the moments at which evaluating a node assigns to a name, and every
evaluation keeps the frames in this sense (`Node.keeps`).
-/

namespace TreeScript

namespace Scopes

variable {s t u : Scopes} {level : Nat} {x : String}

/-- What the frame at a level binds a name to, where the globals are level zero. -/
def boundAt (s : Scopes) (level : Nat) (x : String) : Option Value :=
  s.frames.reverse[level]?.bind (·.get? x)

theorem boundAt_of_lt (h : level < s.depth) (x : String) :
    s.boundAt level x = s.slot (s.depth - 1 - level) x := by
  unfold boundAt
  rw [List.getElem?_reverse h]
  rfl

theorem boundAt_of_le (h : s.depth ≤ level) (x : String) : s.boundAt level x = none := by
  unfold boundAt
  rw [List.getElem?_eq_none (by rwa [List.length_reverse])]
  rfl

/-- A new frame binds nothing. -/
theorem boundAt_push (s : Scopes) (level : Nat) (x : String) :
    s.push.boundAt level x = s.boundAt level x := by
  rcases Nat.lt_trichotomy level s.depth with hlt | rfl | hlt
  · have hsub : s.depth + 1 - 1 - level = s.depth - 1 - level + 1 := by omega
    rw [boundAt_of_lt (by rw [depth_push]; omega), boundAt_of_lt hlt, depth_push, hsub]
    rfl
  · rw [boundAt_of_lt (by rw [depth_push]; omega), boundAt_of_le (Nat.le_refl _), depth_push]
    simp [slot, frames, push]
  · rw [boundAt_of_le (by rw [depth_push]; omega), boundAt_of_le (by omega)]

/-- The frames below the innermost one stay where they are when it goes. -/
theorem boundAt_pop (h : level + 1 < s.depth) (x : String) :
    s.pop.boundAt level x = s.boundAt level x := by
  have hdepth := depth_pop (s := s) (by omega)
  rw [boundAt_of_lt (by omega), boundAt_of_lt (by omega), slot_pop (by omega)]
  congr 1
  omega

theorem boundAt_define (s : Scopes) (name : String) (value : Value) (level : Nat) (x : String) :
    (s.define name value).boundAt level x =
      if level + 1 = s.depth ∧ x = name then some value else s.boundAt level x := by
  by_cases hlt : level < s.depth
  · have hiff : s.depth - 1 - level = 0 ↔ level + 1 = s.depth := by omega
    rw [boundAt_of_lt (by rwa [depth_define]), boundAt_of_lt hlt, depth_define, slot_define]
    simp only [hiff]
  · rw [boundAt_of_le (by rw [depth_define]; omega), boundAt_of_le (by omega), if_neg (by omega)]

/-- An assignment fills a slot at one level, and no frame above binds the name. -/
theorem exists_boundAt_of_assign? {name : String} {value : Value}
    (h : s.assign? name value = some t) :
    ∃ level, (s.boundAt level name).isSome ∧ (∀ l, level < l → s.boundAt l name = none) ∧
      t.depth = s.depth ∧
      ∀ l x, t.boundAt l x = if l = level ∧ x = name then some value else s.boundAt l x := by
  obtain ⟨i, hfull, hfirst, hdepth, hslot⟩ := exists_slot_of_assign? h
  have hi : i < s.depth := Nat.lt_of_not_le fun hle => by
    have hnone : s.frames[i]? = none := List.getElem?_eq_none hle
    simp [slot, hnone] at hfull
  refine ⟨s.depth - 1 - i, ?_, fun l hl => ?_, hdepth, fun l y => ?_⟩
  · have hsub : s.depth - 1 - (s.depth - 1 - i) = i := by omega
    rwa [boundAt_of_lt (by omega), hsub]
  · by_cases hlt : l < s.depth
    · rw [boundAt_of_lt hlt]
      exact hfirst _ (by omega)
    · exact boundAt_of_le (by omega) name
  · by_cases hlt : l < s.depth
    · have hiff : s.depth - 1 - l = i ↔ l = s.depth - 1 - i := by omega
      rw [boundAt_of_lt (hdepth ▸ hlt), boundAt_of_lt hlt, hdepth, hslot]
      simp only [hiff]
    · rw [boundAt_of_le (by omega), boundAt_of_le (by omega), if_neg (by omega)]

/-- All frames but the innermost bind the names that they did, and have new values only from
an assignment to the name, made at a moment when no frame above bound it. -/
structure Keeps (assigns : String → Scopes → Prop) (s t : Scopes) : Prop where
  depth : t.depth = s.depth
  names : ∀ level x, level + 1 < s.depth →
    ((t.boundAt level x).isSome ↔ (s.boundAt level x).isSome)
  changed : ∀ level x, level + 1 < s.depth → t.boundAt level x ≠ s.boundAt level x →
    ∃ u, assigns x u ∧ ∀ l, level < l → u.boundAt l x = none

namespace Keeps

variable {A B : String → Scopes → Prop}

theorem refl (s : Scopes) : Keeps A s s :=
  ⟨rfl, fun _ _ _ => Iff.rfl, fun _ _ _ h => absurd rfl h⟩

theorem mono (h : Keeps A s t) (hAB : ∀ x u, A x u → B x u) : Keeps B s t := by
  refine ⟨h.depth, h.names, fun level x hlevel hne => ?_⟩
  obtain ⟨u, hu, hfree⟩ := h.changed level x hlevel hne
  exact ⟨u, hAB x u hu, hfree⟩

theorem trans (h : Keeps A s t) (h' : Keeps A t u) : Keeps A s u where
  depth := h'.depth.trans h.depth
  names level x hlevel := (h'.names level x (h.depth ▸ hlevel)).trans (h.names level x hlevel)
  changed level x hlevel hne := by
    by_cases hst : t.boundAt level x = s.boundAt level x
    · exact h'.changed level x (h.depth ▸ hlevel) (hst ▸ hne)
    · exact h.changed level x hlevel hst

theorem define (s : Scopes) (name : String) (value : Value) :
    Keeps A s (s.define name value) := by
  have hsame : ∀ level x, level + 1 < s.depth →
      (s.define name value).boundAt level x = s.boundAt level x := fun level x hlevel => by
    rw [boundAt_define, if_neg (by omega)]
  exact ⟨rfl, fun level x hlevel => by rw [hsame level x hlevel],
    fun level x hlevel hne => absurd (hsame level x hlevel) hne⟩

theorem assign {name : String} {value : Value} (h : s.assign? name value = some t)
    (hA : A name s) : Keeps A s t := by
  obtain ⟨level, hfull, hfree, hdepth, hbound⟩ := exists_boundAt_of_assign? h
  refine ⟨hdepth, fun l x _ => ?_, fun l x _ hne => ?_⟩
  · rw [hbound]
    split
    · rename_i hl
      rw [hl.1, hl.2]
      exact ⟨fun _ => hfull, fun _ => rfl⟩
    · exact Iff.rfl
  · rw [hbound] at hne
    split at hne
    · rename_i hl
      rw [hl.1, hl.2]
      exact ⟨s, hA, hfree⟩
    · exact absurd rfl hne

/-- In a scope of its own, what happens keeps all frames that were there before. -/
theorem enclosing (h : Keeps A s.push t) : t.pop.depth = s.depth ∧ ∀ level x, level < s.depth →
    ((t.pop.boundAt level x).isSome ↔ (s.boundAt level x).isSome) ∧
      (t.pop.boundAt level x ≠ s.boundAt level x →
        ∃ u, A x u ∧ ∀ l, level < l → u.boundAt l x = none) := by
  have hdepth : t.depth = s.depth + 1 := h.depth
  have hpop := depth_pop (s := t) (by have := s.one_le_depth; omega)
  refine ⟨by omega, fun level x hlevel => ?_⟩
  have hnames := h.names level x (by rw [depth_push]; omega)
  have hchanged := h.changed level x (by rw [depth_push]; omega)
  rw [boundAt_push] at hnames hchanged
  rw [boundAt_pop (by omega)]
  exact ⟨hnames, hchanged⟩

theorem scope (h : Keeps A s.push t) : Keeps A s t.pop := by
  obtain ⟨hdepth, hlevels⟩ := h.enclosing
  exact ⟨hdepth, fun level x hlevel => (hlevels level x (by omega)).1,
    fun level x hlevel => (hlevels level x (by omega)).2⟩

end Keeps

end Scopes

/-! ## Assignments of a run -/

namespace Action

/-- A lookup leaves the scopes alone. -/
theorem scopes_get {name : String} {m m' : Machine} {r : Except RuntimeError Value}
    (h : get name m = some (r, m')) : m'.scopes = m.scopes := by
  unfold get at h
  cases hv : m.scopes.get? name <;> (rw [hv] at h; cases h; rfl)

/-- An assignment succeeds on the scopes, or leaves them alone and fails. -/
theorem assign_cases {name : String} {value : Value} {m m' : Machine}
    {r : Except RuntimeError Unit} (h : assign name value m = some (r, m')) :
    (r = .ok () ∧ m.scopes.assign? name value = some m'.scopes) ∨
      (∃ e, r = .error e) ∧ m'.scopes = m.scopes := by
  unfold assign at h
  cases hs : m.scopes.assign? name value with
  | none =>
    rw [hs] at h
    cases h
    exact .inr ⟨⟨_, rfl⟩, rfl⟩
  | some s =>
    rw [hs] at h
    cases h
    exact .inl ⟨rfl, rfl⟩

end Action

/-- Evaluating a node from a machine assigns to a name, and these are the scopes at the moment
of the assignment. -/
inductive Node.Assigns (laps : Nat) : Node → Machine → String → Scopes → Prop
  | here {x : String} {value : Node} {m m₁ : Machine} {v : Value} :
    value.evaluate laps (entered (.assign (.identifier x) value) m) = some (.ok v, m₁) →
      (m₁.scopes.assign? x v).isSome → Assigns laps (.assign (.identifier x) value) m x m₁.scopes
  | child {n child : Node} {m : Machine} {c : Call} {x : String} {u : Scopes} :
    c ∈ n.calls laps m → n.children[c.place]? = some child →
      Assigns laps child c.start x u → Assigns laps n m x u

namespace Calling

variable {α β : Type} {assigns : Call → String → Scopes → Prop}

/-- An action changes frames that are not the innermost only by assignments of its calls. -/
def Keeps (assigns : Call → String → Scopes → Prop) (x : Calling α) : Prop :=
  ∀ m r m', x.run m = some (r, m') →
    m.scopes.Keeps (fun name u => ∃ c ∈ x.calls m, assigns c name u) m'.scopes

theorem Keeps.bind {x : Calling α} {f : α → Calling β} (hx : Keeps assigns x)
    (hf : ∀ a, Keeps assigns (f a)) : Keeps assigns (x >>= f) := by
  intro m r m' h
  rcases Action.bind_eq_some_iff.1 h with ⟨e, h₁, rfl⟩ | ⟨a, m₁, h₁, h₂⟩
  · refine (hx _ _ _ h₁).mono fun name u hu => ?_
    obtain ⟨c, hc, hu⟩ := hu
    exact ⟨c, calls_subset_bind x f m hc, hu⟩
  · refine Scopes.Keeps.trans ((hx _ _ _ h₁).mono fun name u hu => ?_)
      ((hf a _ _ _ h₂).mono fun name u hu => ?_)
    · obtain ⟨c, hc, hu⟩ := hu
      exact ⟨c, calls_subset_bind x f m hc, hu⟩
    · obtain ⟨c, hc, hu⟩ := hu
      rw [calls_bind_of_ok h₁]
      exact ⟨c, List.mem_append_right _ hc, hu⟩

/-- Keeping the frames passes from the parts to the whole, where no part assigns itself. -/
theorem congruence_keeps (assigns : Call → String → Scopes → Prop) :
    Congruence (fun e => e.kind ≠ .undefinedVariable) fun x _ => Keeps assigns x where
  pure _ _ _ _ h := by
    cases h
    exact .refl _
  bind := Keeps.bind
  inScope hx m r m' h := by
    obtain ⟨m₁, h₁, rfl⟩ := Action.inScope_eq_some_iff.1 h
    exact (hx _ _ _ h₁).scope
  note _ _ _ _ _ h := by
    cases h
    exact .refl _
  fail _ _ _ _ _ h := by
    cases h
    exact .refl _
  cutOff _ _ _ h := by cases h
  declare name _ _ _ h := by
    cases h
    exact .define _ name .unit
  print value _ m r m' h := by
    simp only [run_silent, Action.print] at h
    split at h <;> (cases h; exact .refl _)
  get _ he := absurd rfl he
  assign _ _ he := absurd rfl he

end Calling

namespace Node

open Calling

theorem keeps_of_not_raises {laps : Nat} {n : Node}
    (hn : n.kind.raises .undefinedVariable = false)
    (ih : ∀ c ∈ n.children, ∀ m r m', c.evaluate laps m = some (r, m') →
      m.scopes.Keeps (c.Assigns laps m) m'.scopes) :
    Keeps (fun c x u => ∃ child, n.children[c.place]? = some child ∧
      child.Assigns laps c.start x u) (n.work laps (n.childEvaluation laps)) := by
  have hchild : ∀ place, Keeps (fun c x u => ∃ child, n.children[c.place]? = some child ∧
      child.Assigns laps c.start x u) (call (n.childEvaluation laps) place) := by
    intro place m r m' h
    cases hplace : n.children[place]? with
    | none => simp [childEvaluation, hplace] at h
    | some child =>
      simp only [run_call, childEvaluation, hplace] at h
      exact (ih child (List.mem_of_getElem? hplace) _ _ _ h).mono fun x u hu =>
        ⟨⟨place, m⟩, List.mem_singleton_self _, child, hplace, hu⟩
  refine @Congruence.work _ _ (congruence_keeps _) laps _ (n.childEvaluation laps) n
    (fun e he hkind => ?_) hchild
  rw [hkind, hn] at he
  cases he

/-- What an assignment does with its value keeps the frames up to the assignment. -/
theorem keeps_assignTo {assigns : String → Scopes → Prop} {target : Node} {v : Value}
    {m m' : Machine} {r : Except RuntimeError Value}
    (h : Action.assignTo target v m = some (r, m'))
    (hassign : ∀ x, target = .identifier x → (m.scopes.assign? x v).isSome →
      assigns x m.scopes) : m.scopes.Keeps assigns m'.scopes := by
  unfold Action.assignTo at h
  split at h
  · rename_i x
    obtain ⟨r₁, m₁, hrun, hscopes⟩ : ∃ r₁ m₁, Action.assign x v m = some (r₁, m₁) ∧
        m'.scopes = m₁.scopes := by
      rcases Action.bind_eq_some_iff.1 h with ⟨e, hrun, -⟩ | ⟨_, m₁, hrun, hrest⟩
      · exact ⟨_, m', hrun, rfl⟩
      · cases hrest
        exact ⟨_, m₁, hrun, rfl⟩
    rw [hscopes]
    rcases Action.assign_cases hrun with ⟨-, hs⟩ | ⟨-, hs⟩
    · exact .assign hs (hassign x rfl (by rw [hs]; rfl))
    · rw [hs]
      exact .refl _
  · cases h
    exact .refl _

/-- Evaluation keeps the frames but the innermost up to its assignments. -/
theorem keeps (laps : Nat) : ∀ n m r m', evaluate laps n m = some (r, m') →
    m.scopes.Keeps (n.Assigns laps m) m'.scopes := by
  refine induct_children fun n ih m r m' h => ?_
  -- the records around the work leave the scopes alone
  obtain ⟨r₁, m₁, hwork, hscopes⟩ : ∃ r₁ m₁, (n.work laps (n.childEvaluation laps)).run
      (n.entered m) = some (r₁, m₁) ∧ m'.scopes = m₁.scopes := by
    rcases evaluate_eq_some_iff.1 h with ⟨e, hwork, -⟩ | ⟨value, m₁, hwork, -, rfl⟩
    · exact ⟨_, m', hwork, rfl⟩
    · exact ⟨_, m₁, hwork, rfl⟩
  rw [hscopes]
  cases hraises : n.kind.raises .undefinedVariable with
  | false =>
    refine (keeps_of_not_raises hraises ih _ _ _ hwork).mono fun x u hu => ?_
    obtain ⟨c, hc, child, hchild, hu⟩ := hu
    exact .child hc hchild hu
  | true =>
    cases n with
    | identifier name =>
      rw [Action.scopes_get hwork]
      exact .refl _
    | assign target value =>
      have hvalue : ∀ {r₂ m₂}, value.evaluate laps (entered (.assign target value) m) =
          some (r₂, m₂) → m.scopes.Keeps ((Node.assign target value).Assigns laps m) m₂.scopes :=
        fun hrun => (ih value (by simp [children]) _ _ _ hrun).mono fun x u hu =>
          .child (c := ⟨1, entered (.assign target value) m⟩) (List.mem_cons_self ..) rfl hu
      rcases Action.bind_eq_some_iff.1 hwork with ⟨e, hrun, -⟩ | ⟨v, m₂, hrun, hassign⟩
      · exact hvalue hrun
      · refine (hvalue hrun).trans (keeps_assignTo hassign ?_)
        rintro x rfl hsome
        exact .here hrun hsome
    | _ => cases hraises

end Node

end TreeScript
