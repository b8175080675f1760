import Mathlib
import TreeScript.Proofs.Equivalence

/-!
# Blocks at the end of blocks

A block that ends in a block does what one block with all the nodes does
(`Node.equivalent_block_append_block`). The nodes of the inner block run with two frames on top
in one case and with one frame in the other. `Scopes.Merged d s t` says that the one frame of
`t` binds what the two frames of `s` bind together, where the inner of the two comes first.
Such stacks are interchangeable, and both sides drop the frames in which they differ.
-/

namespace TreeScript

namespace Scopes

/-! ## Two frames and one -/

theorem length_eq_of_rebind? {name : String} {value : Value} {frames frames' : List Frame}
    (h : rebind? name value frames = some frames') : frames'.length = frames.length := by
  obtain ⟨i, f, -, -, -, rfl⟩ := exists_set_of_rebind? h
  exact List.length_set

/-- Where one stack has two frames on top, the other has one that binds what they bind
together. Below these the stacks are the same, with at least `d` frames. -/
inductive Merged (d : Nat) : Scopes → Scopes → Prop where
  | intro {f g h : Frame} {rest : List Frame} :
    (∀ x, h.get? x = (f.get? x).or (g.get? x)) → d ≤ rest.length →
      Merged d ⟨f, g :: rest⟩ ⟨h, rest⟩

namespace Merged

variable {d : Nat} {s t : Scopes}

theorem get?_eq (hm : Merged d s t) (x : String) : s.get? x = t.get? x := by
  obtain ⟨hget, -⟩ := hm
  rename_i f g h rest
  show (f :: g :: rest).findSome? (·.get? x) = (h :: rest).findSome? (·.get? x)
  rw [List.findSome?_cons, List.findSome?_cons, List.findSome?_cons, hget]
  cases f.get? x <;> rfl

theorem define (hm : Merged d s t) (name : String) (value : Value) :
    Merged d (s.define name value) (t.define name value) := by
  obtain ⟨hget, hle⟩ := hm
  refine .intro (fun x => ?_) hle
  rw [Frame.get?_insert, Frame.get?_insert, hget]
  split <;> rfl

/-- The name is bound in the inner frame, or in the outer one, or below them, where the stacks
are the same. -/
theorem assign? (hm : Merged d s t) (name : String) (value : Value) :
    Option.Rel (Merged d) (s.assign? name value) (t.assign? name value) := by
  have hdefine := hm.define name value
  obtain ⟨hget, hle⟩ := hm
  rename_i f g h rest
  have hbinds : h.binds name = (f.binds name || g.binds name) := by
    unfold Frame.binds
    rw [hget]
    cases f.get? name <;> rfl
  unfold Scopes.assign?
  dsimp only
  rw [hbinds]
  cases hf : f.binds name with
  | true => exact .some hdefine
  | false =>
    cases hg : g.binds name with
    | true =>
      rw [rebind?_cons_of_binds hg]
      refine .some (.intro (fun x => ?_) hle)
      have hnone : f.get? name = none := by simpa [Frame.binds] using hf
      rw [Frame.get?_insert, Frame.get?_insert, hget]
      split
      · rename_i hx
        rw [hx, hnone]
        rfl
      · rfl
    | false =>
      rw [rebind?_cons_of_not_binds hg, if_neg Bool.false_ne_true, Bool.false_or,
        if_neg Bool.false_ne_true, Option.map_map]
      cases hrest : rebind? name value rest with
      | none => exact .none
      | some rest' => exact .some (.intro hget (length_eq_of_rebind? hrest ▸ hle))

end Merged

theorem interchangeable_merged (d : Nat) : Interchangeable (Merged d) where
  get?_eq h := h.get?_eq
  define h := h.define
  assign? h := h.assign?

/-- One scope over the same scopes is not the global one. -/
theorem Over.eq_and_pos {s t : Scopes} (h : Over Eq 1 s t) :
    s = t ∧ 0 < t.enclosing.length := by
  cases h with
  | frame f h =>
    obtain rfl := over_zero_iff.1 h
    exact ⟨rfl, one_le_depth _⟩

/-- Stacks that differ in nothing but the innermost scope, which is not the global one. -/
def SameBelow (s t : Scopes) : Prop :=
  s.enclosing = t.enclosing ∧ 0 < t.enclosing.length

end Scopes

/-! ## Blocks -/

namespace Node

open TreeScript.Action Scopes

theorem evaluateAll_append (laps : Nat) (ys : List Node) : ∀ (xs : List Node) (last : Value),
    evaluateAll laps last (xs ++ ys) =
      evaluateAll laps last xs >>= fun value => evaluateAll laps value ys
  | [], last => rfl
  | x :: xs, last => by
    simp only [List.cons_append, evaluateAll, bind_assoc]
    exact congrArg _ (funext fun value => evaluateAll_append laps ys xs value)

/-- The nodes of a block in the scope around it leave what the block leaves, but for the scope
that they run in. -/
theorem matches_evaluateAll_of_block (laps : Nat) (ys : List Node) :
    Matches (Over Eq 1) SameBelow ((block ys).evaluate laps) (evaluateAll laps .unit ys) := by
  have hmerged := (interchangeable_merged 1).evaluateAll laps .unit ys 0
  have hopen : ∀ s t, Over Eq 1 s t → Over (Merged 1) 0 s.push t := by
    intro s t h
    obtain ⟨rfl, hpos⟩ := h.eq_and_pos
    exact .base (.intro (fun _ => rfl) hpos)
  have hclose : ∀ s t, Over (Merged 1) 0 s t → SameBelow s.pop t := by
    rintro _ _ ⟨⟨-, hle⟩⟩
    exact ⟨rfl, hle⟩
  simp only [evaluate]
  exact ((hmerged.inScope_left hopen hclose).note_left _).visiting_left _

/-- A block in the last position of a block may give up its own scope. If it has no nodes it
has to be the only one, since its value is the unit. -/
theorem equivalent_block_append_block {xs ys : List Node} (h : ys ≠ [] ∨ xs = []) :
    Equivalent (block (xs ++ [block ys])) (block (xs ++ ys)) := by
  refine equivalent_of_matches fun laps => ?_
  have hinner := matches_evaluateAll_of_block laps ys
  have hall : Matches (Over Eq 1) SameBelow (evaluateAll laps .unit (xs ++ [block ys]))
      (evaluateAll laps .unit (xs ++ ys)) := by
    rcases h with hys | rfl
    · -- what the outer nodes leave is the same, and the first inner node drops their value
      obtain ⟨y, ys', rfl⟩ := List.exists_cons_of_ne_nil hys
      rw [evaluateAll_append, evaluateAll_append]
      refine (interchangeable_eq.evaluateAll laps .unit xs 1).bind ?_ fun value => ?_
      · intro s t hst
        obtain ⟨rfl, hpos⟩ := hst.eq_and_pos
        exact ⟨rfl, hpos⟩
      · show Matches _ _ ((block (y :: ys')).evaluate laps >>= Pure.pure) _
        rw [bind_pure]
        exact hinner
    · show Matches _ _ ((block ys).evaluate laps >>= Pure.pure) _
      rw [bind_pure]
      exact hinner
  have hscope : Matches Eq Eq (inScope (evaluateAll laps .unit (xs ++ [block ys])))
      (inScope (evaluateAll laps .unit (xs ++ ys))) := by
    refine hall.inScope ?_ ?_
    · rintro s _ rfl
      exact .frame .empty (.base rfl)
    · rintro ⟨f, enclosing⟩ ⟨g, _⟩ ⟨rfl, hne⟩
      obtain ⟨frame, frames, rfl⟩ := List.exists_cons_of_length_pos hne
      rfl
  simp only [evaluate]
  exact ((((hscope.note_left _).note_right _).visiting_left _).visiting_right _)

/-- The inner block assigns to a name of the outer one, declares it again, prints it, and
fails. -/
theorem equivalent_block_append_block_redeclaring :
    let xs : List Node := [.var "x", .assign (.identifier "x") (.literal (.boolean true))]
    let ys : List Node := [.assign (.identifier "x") (.literal (.string "a")), .var "x",
      .print (.identifier "x"), .identifier "q"]
    let m : Machine := ⟨.initial, .unlimited, .off⟩
    (ys ≠ [] ∨ xs = []) ∧ Equivalent (block (xs ++ [block ys])) (block (xs ++ ys)) ∧
      ∃ m', (block (xs ++ [block ys])).Returns m (.error (.undefinedVariable "q")) m' ∧
        m'.scopes = .initial := by
  intro xs ys m
  have hne : ys ≠ [] := List.cons_ne_nil _ _
  exact ⟨.inl hne, equivalent_block_append_block (.inl hne), _, ⟨0, by cbv⟩, by cbv⟩

end Node

end TreeScript
