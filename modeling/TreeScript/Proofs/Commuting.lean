import TreeScript.Proofs.Discipline
import TreeScript.Proofs.Footprint
import TreeScript.Proofs.Lockstep

/-!
# Independent trees

Two trees are independent if neither names what the other may bind, and they do not both
print. Then each runs after the other as it runs first, and the order makes no difference to
the scopes and the output (`Node.Returns.commute`).

Lookups alone would not carry this, since the scopes are to be the same in every frame.
`Scopes.AgreeOn S` says that two stacks of one depth have the same slots for the names of
`S`. A tree with these names keeps this in two runs, and writes the same to both sinks
(`Node.Returns.exists_agreeing`). The slots of other names it leaves alone
(`Node.Returns.agreeOn_compl`).
-/

namespace TreeScript

/-! ## Scopes -/

namespace Scopes

/-- Stacks of one depth, with the same slots for the names of a set. -/
structure AgreeOn (S : Set String) (s t : Scopes) : Prop where
  depth : s.depth = t.depth
  slot : ∀ i, ∀ x ∈ S, s.slot i x = t.slot i x

variable {S : Set String} {s t s' t' : Scopes}

/-- Scopes are their slots. -/
theorem ext_slot (hdepth : s.depth = t.depth) (h : ∀ i x, s.slot i x = t.slot i x) : s = t := by
  have hframes : s.frames = t.frames := by
    refine List.ext_getElem hdepth fun i hs ht => Frame.ext_get? fun x => ?_
    have hslot := h i x
    unfold slot at hslot
    rwa [List.getElem?_eq_getElem hs, List.getElem?_eq_getElem ht] at hslot
  obtain ⟨hinner, henclosing⟩ := List.cons_eq_cons.1 hframes
  obtain ⟨innermost, enclosing⟩ := s
  obtain ⟨innermost', enclosing'⟩ := t
  obtain rfl : innermost = innermost' := hinner
  obtain rfl : enclosing = enclosing' := henclosing
  rfl

/-- A lookup is a matter of the slots of its name. -/
theorem get?_congr {x : String} (hdepth : s.depth = t.depth)
    (h : ∀ i, s.slot i x = t.slot i x) : s.get? x = t.get? x := by
  have hmap : s.frames.map (·.get? x) = t.frames.map (·.get? x) := by
    refine List.ext_getElem (by simpa only [List.length_map]) fun i hs ht => ?_
    rw [List.length_map] at hs ht
    have hslot := h i
    unfold slot at hslot
    rw [List.getElem?_eq_getElem hs, List.getElem?_eq_getElem ht] at hslot
    simpa using hslot
  have hlist : ∀ frames : List Frame, frames.findSome? (·.get? x) =
      (frames.map (·.get? x)).findSome? id := fun frames => by
    rw [List.findSome?_map]
    rfl
  rw [get?, get?, hlist, hlist, hmap]

namespace AgreeOn

theorem refl (s : Scopes) : AgreeOn S s s :=
  ⟨rfl, fun _ _ _ => rfl⟩

theorem symm (h : AgreeOn S s t) : AgreeOn S t s :=
  ⟨h.depth.symm, fun i x hx => (h.slot i x hx).symm⟩

theorem trans {u : Scopes} (h : AgreeOn S s t) (h' : AgreeOn S t u) : AgreeOn S s u :=
  ⟨h.depth.trans h'.depth, fun i x hx => (h.slot i x hx).trans (h'.slot i x hx)⟩

theorem mono {S' : Set String} (h : AgreeOn S s t) (hS : ∀ x ∈ S', x ∈ S) : AgreeOn S' s t :=
  ⟨h.depth, fun i x hx => h.slot i x (hS x hx)⟩

theorem get?_eq (h : AgreeOn S s t) {x : String} (hx : x ∈ S) : s.get? x = t.get? x :=
  get?_congr h.depth fun i => h.slot i x hx

theorem push (h : AgreeOn S s t) : AgreeOn S s.push t.push := by
  refine ⟨congrArg (· + 1) h.depth, fun i x hx => ?_⟩
  cases i with
  | zero => rfl
  | succ i => exact h.slot i x hx

theorem pop (h : AgreeOn S s t) : AgreeOn S s.pop t.pop := by
  by_cases htwo : 2 ≤ s.depth
  · have htwo' : 2 ≤ t.depth := h.depth ▸ htwo
    have hs := depth_pop htwo
    have ht := depth_pop htwo'
    have hdepth := h.depth
    refine ⟨by omega, fun i x hx => ?_⟩
    rw [slot_pop htwo, slot_pop htwo', h.slot (i + 1) x hx]
  · -- the global scope stays
    have hpop : ∀ {u : Scopes}, ¬2 ≤ u.depth → u.pop = u := by
      rintro ⟨innermost, _ | _⟩ hu
      · rfl
      · exact absurd (Nat.le_add_left 2 _) hu
    rw [hpop htwo, hpop (h.depth ▸ htwo)]
    exact h

theorem define (h : AgreeOn S s t) (name : String) (value : Value) :
    AgreeOn S (s.define name value) (t.define name value) := by
  refine ⟨h.depth, fun i x hx => ?_⟩
  rw [slot_define, slot_define, h.slot i x hx]

/-- An assignment to a name of the set fails in both, or fills the same slot in both. -/
theorem assign? (h : AgreeOn S s t) {name : String} (hname : name ∈ S) (value : Value) :
    Option.Rel (AgreeOn S) (s.assign? name value) (t.assign? name value) := by
  have hget := h.get?_eq hname
  cases hs : s.assign? name value with
  | none =>
    rw [assign?_eq_none_iff, hget, ← @assign?_eq_none_iff t name value] at hs
    rw [hs]
    exact .none
  | some s' =>
    cases ht : t.assign? name value with
    | none =>
      rw [assign?_eq_none_iff, ← hget, ← @assign?_eq_none_iff s name value, hs] at ht
      cases ht
    | some t' =>
      obtain ⟨i, hfull, hfirst, hdepth, hslot⟩ := exists_slot_of_assign? hs
      obtain ⟨j, hfull', hfirst', hdepth', hslot'⟩ := exists_slot_of_assign? ht
      -- both slots are the first that is full
      obtain rfl : i = j := by
        rcases Nat.lt_trichotomy i j with hlt | heq | hlt
        · rw [h.slot i name hname, hfirst' i hlt] at hfull
          cases hfull
        · exact heq
        · rw [← h.slot j name hname, hfirst j hlt] at hfull'
          cases hfull'
      refine .some ⟨by rw [hdepth, hdepth', h.depth], fun k x hx => ?_⟩
      rw [hslot, hslot', h.slot k x hx]

end AgreeOn

end Scopes

/-! ## Runs -/

/-- A sink with some bytes more. -/
def Sink.followed (w : Sink) (more : ByteArray) : Sink :=
  { w with written := w.written ++ more }

theorem Sink.followed_empty (w : Sink) : w.followed .empty = w := by
  simp [followed]

theorem Sink.followed_followed (w : Sink) (more more' : ByteArray) :
    (w.followed more).followed more' = w.followed (more ++ more') := by
  simp [followed, ByteArray.append_assoc]

/-- The scopes agree on the names of a set, and both sinks have got the same bytes. -/
structure Machine.AgreeOn (S : Set String) (w₁ w₂ : Sink) (m₁ m₂ : Machine) : Prop where
  scopes : m₁.scopes.AgreeOn S m₂.scopes
  sinks : ∃ more, m₁.sink = w₁.followed more ∧ m₂.sink = w₂.followed more

namespace Action

variable {α : Type} {S : Set String} {w₁ w₂ : Sink}

theorem lockstep_print_agreeOn (h₁ : w₁.capacity = none) (h₂ : w₂.capacity = none)
    (value : Value) : Lockstep (Machine.AgreeOn S w₁ w₂) (print value) (print value) := by
  rintro ⟨s₁, sink₁, j₁⟩ ⟨s₂, sink₂, j₂⟩ ⟨hscopes, more, hsink₁, hsink₂⟩
  obtain rfl : sink₁ = w₁.followed more := hsink₁
  obtain rfl : sink₂ = w₂.followed more := hsink₂
  have hwrite : ∀ {w : Sink}, w.capacity = none → (w.followed more).write (value.text ++ "\n") =
      (w.followed (more ++ (value.text ++ "\n").toUTF8), none) := fun {w} hw => by
    rw [Sink.write_of_capacity_eq_none (by exact hw), Sink.followed, ← hw,
      ← Sink.followed_followed]
    rfl
  unfold print
  simp only [hwrite h₁, hwrite h₂]
  exact .some ⟨rfl, hscopes, _, rfl, rfl⟩

/-- What a tree with names of the set does is the same on scopes that agree on them. -/
theorem touching_agreeOn (S : Set String) (h₁ : w₁.capacity = none) (h₂ : w₂.capacity = none) :
    Touching (Lockstep (Machine.AgreeOn S w₁ w₂)) S True := by
  have hP : Compositional (Lockstep (Machine.AgreeOn S w₁ w₂)) :=
    compositional_lockstep fun _ _ _ h => ⟨h.scopes, h.sinks⟩
  refine { hP.congruence with inScope := ?_, declare := ?_, get := ?_, assign := ?_, print := ?_ }
  · exact fun h => h.inScope (fun _ _ hm => ⟨hm.scopes.push, hm.sinks⟩)
      fun _ _ hm => ⟨hm.scopes.pop, hm.sinks⟩
  · exact fun name _ _ _ hm => .some ⟨rfl, hm.scopes.define name .unit, hm.sinks⟩
  · intro name hname m₁ m₂ hm
    have hof := hP.ofOption (.undefinedVariable name) (m₁.scopes.get? name) m₁ m₂ hm
    unfold get
    rwa [← hm.scopes.get?_eq hname]
  · intro name hname value m₁ m₂ hm
    have hrel := hm.scopes.assign? hname value
    unfold assign
    generalize m₁.scopes.assign? name value = a, m₂.scopes.assign? name value = b at hrel
    cases hrel with
    | none => exact hP.fail _ m₁ m₂ hm
    | some hs => exact .some ⟨rfl, hs, hm.sinks⟩
  · exact fun _ => lockstep_print_agreeOn h₁ h₂

/-- Every run of an action leaves the sink as it was. -/
def Silent (x : Action α) : Prop :=
  ∀ m r m', x m = some (r, m') → m'.sink = m.sink

theorem touching_silent : Touching (fun x _ => Silent x) Set.univ False where
  pure _ _ _ _ h := by cases h; rfl
  bind := by
    rintro α β x y f g hx hf m r m' h
    rcases bind_eq_some_iff.1 h with ⟨e, h₁, rfl⟩ | ⟨a, m₁, h₁, h₂⟩
    · exact hx _ _ _ h₁
    · exact (hf a _ _ _ h₂).trans (hx _ _ _ h₁)
  note _ _ _ _ _ h := by cases h; rfl
  fail _ _ _ _ _ h := by cases h; rfl
  cutOff _ _ _ h := by cases h
  inScope := by
    rintro α x y hx m r m' h
    obtain ⟨m₁, h₁, rfl⟩ := inScope_eq_some_iff.1 h
    have hbody := hx _ _ _ h₁
    exact hbody
  declare _ _ _ _ _ h := by cases h; rfl
  get name _ m r m' h := by
    unfold get at h
    cases hv : m.scopes.get? name <;> rw [hv] at h <;> cases h <;> rfl
  assign name _ value m r m' h := by
    unfold assign at h
    cases hs : m.scopes.assign? name value <;> simp only [hs] at h <;> cases h <;> rfl
  print h := h.elim

end Action

namespace Node

open TreeScript.Action Scopes

variable {a b n : Node} {m m' m₁ m₂ : Machine} {r : Except RuntimeError Value}

/-- A run on scopes that agree on the names of a tree has a counterpart, which writes the
same. -/
theorem Returns.exists_agreeing (h : n.Returns m₁ r m') {S : Set String}
    (hS : ∀ x ∈ n.names, x ∈ S) (hscopes : m₁.scopes.AgreeOn S m₂.scopes)
    (h₁ : m₁.sink.capacity = none) (h₂ : m₂.sink.capacity = none) :
    ∃ m₂', n.Returns m₂ r m₂' ∧ m'.AgreeOn S m₁.sink m₂.sink m₂' := by
  obtain ⟨laps, h⟩ := h
  have hm : m₁.AgreeOn S m₁.sink m₂.sink m₂ :=
    ⟨hscopes, .empty, (Sink.followed_empty _).symm, (Sink.followed_empty _).symm⟩
  obtain ⟨m₂', h₂, hm'⟩ :=
    ((touching_agreeOn S h₁ h₂).evaluate laps hS fun _ => trivial).exists_some hm h
  exact ⟨m₂', ⟨laps, h₂⟩, hm'⟩

/-- A tree adds to a sink without a limit, which it stays. -/
theorem Returns.capacity_eq_none (h : n.Returns m r m') (hsink : m.sink.capacity = none) :
    m'.sink.capacity = none := by
  obtain ⟨-, -, -, more, hmore, -⟩ :=
    h.exists_agreeing (S := Set.univ) (fun _ _ => trivial) (.refl m.scopes) hsink hsink
  rw [hmore]
  exact hsink

/-- A tree leaves the slots of the names alone that it does not bind. -/
theorem Returns.agreeOn_compl (h : n.Returns m r m') :
    m.scopes.AgreeOn {x | x ∉ n.writes} m'.scopes := by
  obtain ⟨laps, h⟩ := h
  obtain ⟨-, -, hwithin, -⟩ :=
    evaluate_retraces laps n n.declared_subset_writes n.assigned_subset_writes _ _ _ h
  refine ⟨hwithin.depth.symm, fun i x hx => ?_⟩
  by_contra hne
  rcases hwithin.changed i x (Ne.symm hne) with ⟨hmem, -⟩ | ⟨-, hmem⟩
  · exact hx hmem
  · exact hx hmem

/-- A tree without a print leaves the sink alone. -/
theorem Returns.sink_eq (h : n.Returns m r m') (hn : n.prints = false) : m'.sink = m.sink := by
  obtain ⟨laps, h⟩ := h
  exact touching_silent.evaluate laps (fun _ _ => trivial) (by simp [hn]) _ _ _ h

/-- Two trees of which neither names what the other may bind, and of which at most one
prints, can change places: if they return values one after the other, they return the same
values in the other order, and leave the same output and the same scopes. -/
theorem Returns.commute (hab : ∀ x ∈ a.names, x ∉ b.writes) (hba : ∀ x ∈ b.names, x ∉ a.writes)
    (hprints : ¬(a.prints = true ∧ b.prints = true)) (hsink : m.sink.capacity = none)
    {v w : Value} (ha : a.Returns m (.ok v) m₁) (hb : b.Returns m₁ (.ok w) m₂) :
    ∃ m₁' m₂', b.Returns m (.ok w) m₁' ∧ a.Returns m₁' (.ok v) m₂' ∧
      m₂'.sink = m₂.sink ∧ m₂'.scopes = m₂.scopes := by
  have hkeptA := ha.agreeOn_compl
  have hkeptB := hb.agreeOn_compl
  -- the second tree runs first as it ran after the first one
  obtain ⟨m₁', hb', hagreeB, moreB, hmoreB, hmoreB'⟩ :=
    hb.exists_agreeing (fun _ hx => hx) (hkeptA.mono hba).symm (ha.capacity_eq_none hsink) hsink
  have hkeptB' := hb'.agreeOn_compl
  -- and the first one after it as it ran first
  obtain ⟨m₂', ha', hagreeA, moreA, hmoreA, hmoreA'⟩ :=
    ha.exists_agreeing (fun _ hx => hx) (hkeptB'.mono hab) hsink (hb'.capacity_eq_none hsink)
  have hkeptA' := ha'.agreeOn_compl
  refine ⟨m₁', m₂', hb', ha', ?_, ?_⟩
  · cases hA : a.prints with
    | false => rw [ha'.sink_eq hA, hmoreB', hmoreB, ha.sink_eq hA]
    | true =>
      have hB : b.prints = false := by simpa [hA] using hprints
      rw [hb.sink_eq hB, hmoreA', hmoreA, hb'.sink_eq hB]
  · refine ext_slot (hagreeA.depth.symm.trans hkeptB.depth) fun i x => ?_
    by_cases hxb : x ∈ b.names
    · calc m₂'.scopes.slot i x = m₁'.scopes.slot i x := (hkeptA'.slot i x (hba x hxb)).symm
        _ = m₂.scopes.slot i x := (hagreeB.slot i x hxb).symm
    have hxw : x ∉ b.writes := fun hx => hxb (b.writes_subset_names hx)
    rw [← hkeptB.slot i x hxw]
    by_cases hxa : x ∈ a.names
    · exact (hagreeA.slot i x hxa).symm
    have hxw' : x ∉ a.writes := fun hx => hxa (a.writes_subset_names hx)
    calc m₂'.scopes.slot i x = m₁'.scopes.slot i x := (hkeptA'.slot i x hxw').symm
      _ = m.scopes.slot i x := (hkeptB'.slot i x hxw).symm
      _ = m₁.scopes.slot i x := hkeptA.slot i x hxw'

/-- A loop that prints, and an assignment that declares a name in the innermost frame and
fills a slot of the other one. -/
theorem Returns.commute_loop :
    let a : Node := .whileLoop (.identifier "p") (.block [.var "t",
      .assign (.identifier "p") (.binary .equal (.identifier "p") (.identifier "t")),
      .print (.literal (.string "lap"))])
    let b : Node := .assign (.identifier "q") (.binary .equal (.var "u") (.identifier "q"))
    let m : Machine := ⟨⟨Frame.empty.insert "p" (.boolean true), [Frame.empty.insert "q" .unit]⟩,
      .unlimited, .off⟩
    let m₁ : Machine := ⟨⟨Frame.empty.insert "p" (.boolean false), [Frame.empty.insert "q" .unit]⟩,
      ⟨"lap\n".toUTF8, none, .refuses⟩, .off⟩
    let m₂ : Machine := ⟨⟨(Frame.empty.insert "p" (.boolean false)).insert "u" .unit,
      [Frame.empty.insert "q" (.boolean true)]⟩, ⟨"lap\n".toUTF8, none, .refuses⟩, .off⟩
    (∀ x ∈ a.names, x ∉ b.writes) ∧ (∀ x ∈ b.names, x ∉ a.writes) ∧
      ¬(a.prints = true ∧ b.prints = true) ∧ m.sink.capacity = none ∧
      a.Returns m (.ok .unit) m₁ ∧ b.Returns m₁ (.ok (.boolean true)) m₂ ∧
      ∃ m₁' m₂', b.Returns m (.ok (.boolean true)) m₁' ∧ a.Returns m₁' (.ok .unit) m₂' ∧
        m₂'.sink = m₂.sink ∧ m₂'.scopes = m₂.scopes := by
  intro a b m m₁ m₂
  have hab : ∀ x ∈ a.names, x ∉ b.writes := by decide
  have hba : ∀ x ∈ b.names, x ∉ a.writes := by decide
  have ha : (Node.whileLoop (.identifier "p") (.block [.var "t",
      .assign (.identifier "p") (.binary .equal (.identifier "p") (.identifier "t")),
      .print (.literal (.string "lap"))])).Returns
      ⟨⟨Frame.empty.insert "p" (.boolean true), [Frame.empty.insert "q" .unit]⟩,
        .unlimited, .off⟩ (.ok .unit)
      ⟨⟨Frame.empty.insert "p" (.boolean false), [Frame.empty.insert "q" .unit]⟩,
        ⟨"lap\n".toUTF8, none, .refuses⟩, .off⟩ := ⟨2, by cbv⟩
  have hb : (Node.assign (.identifier "q")
      (.binary .equal (.var "u") (.identifier "q"))).Returns
      ⟨⟨Frame.empty.insert "p" (.boolean false), [Frame.empty.insert "q" .unit]⟩,
        ⟨"lap\n".toUTF8, none, .refuses⟩, .off⟩ (.ok (.boolean true))
      ⟨⟨(Frame.empty.insert "p" (.boolean false)).insert "u" .unit,
        [Frame.empty.insert "q" (.boolean true)]⟩, ⟨"lap\n".toUTF8, none, .refuses⟩, .off⟩ :=
    ⟨0, by cbv⟩
  have hprints : ¬(a.prints = true ∧ b.prints = true) := by decide
  exact ⟨hab, hba, hprints, rfl, ha, hb, Returns.commute hab hba hprints rfl ha hb⟩

end Node

end TreeScript
