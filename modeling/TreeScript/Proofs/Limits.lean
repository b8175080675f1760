import TreeScript.Proofs.Calls
import TreeScript.Proofs.Discipline

/-!
# Limited sinks

A limit on the sink changes nothing in a run that stays within it. Any other run ends
where its output passes the limit, and the sink has what fits.

`Action.Cut capacity whenFull x y` compares a run of `x` on a sink without a limit with
a run of `y` on a limited one. The runs part in the middle of a print, and an error that
arises there skips all that follows, so the first bytes of the whole output are those
that were taken before (`extract_append_of_le`).
-/

namespace TreeScript

namespace Sink

/-- A text that fits is written as a whole. -/
theorem write_of_size_le {written : ByteArray} {capacity : Nat} {text : String}
    (h : (written ++ text.toUTF8).size ≤ capacity) (whenFull : Full) :
    (⟨written, some capacity, whenFull⟩ : Sink).write text =
      (⟨written ++ text.toUTF8, some capacity, whenFull⟩, none) :=
  if_pos h

/-- A text that does not fit is cut off at the capacity. -/
theorem write_of_lt_size {written : ByteArray} {capacity : Nat} {text : String}
    (h : capacity < (written ++ text.toUTF8).size) (whenFull : Full) :
    (⟨written, some capacity, whenFull⟩ : Sink).write text =
      (⟨(written ++ text.toUTF8).extract 0 capacity, some capacity, whenFull⟩,
        some whenFull.reason) :=
  if_neg (Nat.not_le_of_lt h)

end Sink

/-- A machine with the sink limited. -/
def Machine.limited (m : Machine) (capacity : Nat) (whenFull : Sink.Full) : Machine :=
  { m with sink := ⟨m.sink.written, some capacity, whenFull⟩ }

namespace Action

variable {α : Type} {capacity : Nat} {whenFull : Sink.Full}

/-- On a sink without a limit the first action prints some bytes more. The second does
as much on a limited sink if they fit. If they do not, it fails with the sink full. -/
def Cut (capacity : Nat) (whenFull : Sink.Full) (x y : Action α) : Prop :=
  ∀ m r m', m.sink.capacity = none → x m = some (r, m') →
    (∃ more, m'.sink = { m.sink with written := m.sink.written ++ more }) ∧
    (m'.sink.written.size ≤ capacity →
      y (m.limited capacity whenFull) = some (r, m'.limited capacity whenFull)) ∧
    (m.sink.written.size ≤ capacity → capacity < m'.sink.written.size →
      ∃ s j, y (m.limited capacity whenFull) = some (.error (.outputFailed whenFull.reason),
        ⟨s, ⟨m'.sink.written.extract 0 capacity, some capacity, whenFull⟩, j⟩))

/-- An action that leaves the sink alone, and does the same with any other sink. -/
theorem Cut.of_sink_eq {x : Action α} (h : ∀ m r m', x m = some (r, m') →
    m'.sink = m.sink ∧ ∀ sink, x { m with sink := sink } = some (r, { m' with sink := sink })) :
    Cut capacity whenFull x x := by
  intro m r m' _ hrun
  obtain ⟨hsink, hany⟩ := h m r m' hrun
  refine ⟨⟨.empty, by rw [hsink, ByteArray.append_empty]⟩, fun _ => ?_, fun hle hlt => ?_⟩
  · rw [Machine.limited, Machine.limited, hsink]
    exact hany _
  · rw [hsink] at hlt
    omega

theorem Cut.bind {β : Type} {x y : Action α} {f g : α → Action β}
    (hx : Cut capacity whenFull x y) (hf : ∀ a, Cut capacity whenFull (f a) (g a)) :
    Cut capacity whenFull (x >>= f) (y >>= g) := by
  intro m r m' hm hrun
  rcases bind_eq_some_iff.1 hrun with ⟨e, h₁, rfl⟩ | ⟨a, m₁, h₁, h₂⟩
  · obtain ⟨hmore, hfits, hfull⟩ := hx m _ m' hm h₁
    refine ⟨hmore, fun hle => bind_error (hfits hle), fun hle hlt => ?_⟩
    obtain ⟨s, j, hy⟩ := hfull hle hlt
    exact ⟨s, j, bind_error hy⟩
  · obtain ⟨⟨more₁, hmore₁⟩, hfits₁, hfull₁⟩ := hx m _ m₁ hm h₁
    have hm₁ : m₁.sink.capacity = none := by rw [hmore₁]; exact hm
    obtain ⟨⟨more₂, hmore₂⟩, hfits₂, hfull₂⟩ := hf a m₁ r m' hm₁ h₂
    have hwritten : m'.sink.written = m₁.sink.written ++ more₂ := by rw [hmore₂]
    have hsize : m'.sink.written.size = m₁.sink.written.size + more₂.size := by
      rw [hwritten, ByteArray.size_append]
    refine ⟨⟨more₁ ++ more₂, by rw [hmore₂, hmore₁, ByteArray.append_assoc]⟩, fun hle => ?_,
      fun hle hlt => ?_⟩
    · rw [bind_ok (hfits₁ (by omega))]
      exact hfits₂ hle
    · -- the sink is full in the second part, or was so in the first
      rcases Nat.lt_or_ge capacity m₁.sink.written.size with hlt₁ | hle₁
      · obtain ⟨s, j, hy⟩ := hfull₁ hle hlt₁
        refine ⟨s, j, ?_⟩
        rw [hwritten, extract_append_of_le (by omega)]
        exact bind_error hy
      · obtain ⟨s, j, hg⟩ := hfull₂ hle₁ hlt
        rw [bind_ok (hfits₁ hle₁)]
        exact ⟨s, j, hg⟩

theorem Cut.inScope {x y : Action α} (h : Cut capacity whenFull x y) :
    Cut capacity whenFull (inScope x) (inScope y) := by
  intro m r m' hm hrun
  obtain ⟨m₁, h₁, rfl⟩ := inScope_eq_some_iff.1 hrun
  obtain ⟨hmore, hfits, hfull⟩ := h m.opened r m₁ hm h₁
  refine ⟨hmore, fun hle => inScope_eq_some_iff.2 ⟨_, hfits hle, rfl⟩, fun hle hlt => ?_⟩
  obtain ⟨s, j, hy⟩ := hfull hle hlt
  exact ⟨s.pop, _, inScope_eq_some_iff.2 ⟨_, hy, rfl⟩⟩

theorem cut_print (value : Value) : Cut capacity whenFull (print value) (print value) := by
  intro m r m' hm hrun
  simp only [print, Sink.write_of_capacity_eq_none hm] at hrun
  cases hrun
  refine ⟨⟨(value.text ++ "\n").toUTF8, by simp only [hm]⟩, fun hle => ?_, fun _ hlt => ?_⟩
  · simp only [print, Machine.limited, Sink.write_of_size_le hle]
  · simp only [print, Machine.limited, Sink.write_of_lt_size hlt]
    exact ⟨_, _, rfl⟩

theorem cut_get (name : String) : Cut capacity whenFull (get name) (get name) := by
  refine Cut.of_sink_eq fun m r m' h => ?_
  unfold get at h ⊢
  cases hv : m.scopes.get? name <;> rw [hv] at h <;> cases h <;>
    exact ⟨rfl, fun _ => by rw [hv]; rfl⟩

theorem cut_assign (name : String) (value : Value) :
    Cut capacity whenFull (assign name value) (assign name value) := by
  refine Cut.of_sink_eq fun m r m' h => ?_
  unfold assign at h ⊢
  dsimp only at h ⊢
  cases hs : m.scopes.assign? name value <;> rw [hs] at h <;> cases h <;>
    exact ⟨rfl, fun _ => rfl⟩

theorem cut_note (r : Record) : Cut capacity whenFull (note r) (note r) :=
  Cut.of_sink_eq fun _ _ _ h => by cases h; exact ⟨rfl, fun _ => rfl⟩

theorem congruence_cut (capacity : Nat) (whenFull : Sink.Full) :
    Calling.Congruence (fun _ => True) fun x y => Cut capacity whenFull x.run y.run where
  pure _ := Cut.of_sink_eq fun _ _ _ h => by cases h; exact ⟨rfl, fun _ => rfl⟩
  bind := Cut.bind
  inScope := Cut.inScope
  note r _ := cut_note r
  fail _ _ := Cut.of_sink_eq fun _ _ _ h => by cases h; exact ⟨rfl, fun _ => rfl⟩
  cutOff _ _ _ _ h := by cases h
  declare _ := Cut.of_sink_eq fun _ _ _ h => by cases h; exact ⟨rfl, fun _ => rfl⟩
  print value _ := cut_print value
  get name _ := cut_get name
  assign name value _ := cut_assign name value

end Action

namespace Node

/-- A tree whose whole output fits a limited sink returns on it as it does without a
limit. One whose output does not fit fails there with the sink full of the first bytes
of it, and the stack of scopes is as deep as before. -/
theorem Returns.on_limited {n : Node} {s : Scopes} {j : Journal} {r : Except RuntimeError Value}
    {m' : Machine} (h : n.Returns ⟨s, .unlimited, j⟩ r m') (capacity : Nat)
    (whenFull : Sink.Full) :
    (m'.sink.written.size ≤ capacity →
      n.Returns ⟨s, .limited capacity whenFull, j⟩ r (m'.limited capacity whenFull)) ∧
    (capacity < m'.sink.written.size → ∃ e m'', e.kind = .output ∧
      n.Returns ⟨s, .limited capacity whenFull, j⟩ (.error e) m'' ∧
        m''.sink.written = m'.sink.written.extract 0 capacity ∧ m''.scopes.depth = s.depth) := by
  obtain ⟨laps, h⟩ := h
  have hcut := (Action.congruence_cut capacity whenFull).evaluate
    (fun record _ => Action.cut_note record) laps n
  obtain ⟨-, hfits, hfull⟩ := hcut _ _ _ rfl h
  refine ⟨fun hle => ⟨laps, hfits hle⟩, fun hlt => ?_⟩
  obtain ⟨s', j', hrun⟩ := hfull (Nat.zero_le _) hlt
  obtain ⟨-, -, hwithin, -⟩ :=
    evaluate_retraces laps n (List.Subset.refl _) (List.Subset.refl _) _ _ _ hrun
  exact ⟨_, _, rfl, ⟨laps, hrun⟩, rfl, hwithin.depth⟩

/-- Four bytes fit a sink of four. On a sink of three the print of an empty text fails, at
its newline and within two scopes. -/
theorem Returns.on_limited_empty_text :
    let n : Node := .block [.print (.literal (.string "ab")),
      .ifThen (.literal (.boolean true)) (.print (.literal (.string "")))]
    let m' : Machine := ⟨.initial, ⟨"ab\n\n".toUTF8, none, .refuses⟩, .off⟩
    n.Returns ⟨.initial, .unlimited, .off⟩ (.ok (.string "")) m' ∧
      n.Returns ⟨.initial, .limited 4 .refuses, .off⟩ (.ok (.string ""))
        (m'.limited 4 .refuses) ∧
      ∃ e m'', e.kind = .output ∧
        n.Returns ⟨.initial, .limited 3 .takesNothing, .off⟩ (.error e) m'' ∧
          m''.sink.written = "ab\n".toUTF8 ∧ m''.scopes.depth = 1 := by
  have h : (Node.block [.print (.literal (.string "ab")),
      .ifThen (.literal (.boolean true)) (.print (.literal (.string "")))]).Returns
      ⟨.initial, .unlimited, .off⟩ (.ok (.string ""))
      ⟨.initial, ⟨"ab\n\n".toUTF8, none, .refuses⟩, .off⟩ := ⟨0, by cbv⟩
  have hcut : ("ab\n\n".toUTF8).extract 0 3 = "ab\n".toUTF8 := by decide
  obtain ⟨e, m'', he, hrun, hwritten, hdepth⟩ :=
    (Returns.on_limited h 3 .takesNothing).2 (by decide)
  exact ⟨h, (Returns.on_limited h 4 .refuses).1 (by decide), e, m'', he, hrun,
    hwritten.trans hcut, hdepth⟩

end Node

end TreeScript
