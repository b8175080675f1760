import TreeScript.Proofs.Equivalence

/-!
# Hooks for inspection

A hook has the value of its child and does nothing else, so a tree does what it does without
its hooks (`Node.equivalent_stripped`). `Node.stripped` leaves the target of an assignment as it
is. A target is looked at and not evaluated, and a hook around a name is no target.

`Node.hooked` looks for hooks outside of targets. None is left in a stripped tree
(`Node.hooked_stripped`), and a tree without any is stripped already
(`Node.stripped_of_not_hooked`).
-/

namespace TreeScript

namespace Action

open Scopes

/-- Printing is the same on the same scopes. -/
theorem matches_print (value : Value) : Matches Eq Eq (print value) (print value) := by
  have h := interchangeable_eq.touching.print trivial value 0
  simpa only [Matches, Machine.On, over_zero_iff] using h

theorem matches_assignTo (target : Node) (value : Value) :
    Matches Eq Eq (assignTo target value) (assignTo target value) := by
  have hnames : ∀ x ∈ target.names, x ∈ Set.univ := fun _ _ => trivial
  have h := interchangeable_eq.touching.assignTo hnames value 0
  simpa only [Matches, Machine.On, over_zero_iff] using h

end Action

namespace Node

mutual

/-- A tree without its hooks, but for those in the targets of assignments. -/
def stripped : Node → Node
  | .literal value => .literal value
  | .print inner => .print (stripped inner)
  | .binary op left right => .binary op (stripped left) (stripped right)
  | .ifThen test body => .ifThen (stripped test) (stripped body)
  | .ifElse test body otherwise => .ifElse (stripped test) (stripped body) (stripped otherwise)
  | .whileLoop test body => .whileLoop (stripped test) (stripped body)
  | .block nodes => .block (strippedAll nodes)
  | .var name => .var name
  | .identifier name => .identifier name
  | .assign target value => .assign target (stripped value)
  | .inspect inner => stripped inner

def strippedAll : List Node → List Node
  | [] => []
  | node :: nodes => stripped node :: strippedAll nodes

end

mutual

/-- Whether there is a hook anywhere in a tree but in a target. -/
def hooked : Node → Bool
  | .literal _ => false
  | .print inner => hooked inner
  | .binary _ left right => hooked left || hooked right
  | .ifThen test body => hooked test || hooked body
  | .ifElse test body otherwise => hooked test || hooked body || hooked otherwise
  | .whileLoop test body => hooked test || hooked body
  | .block nodes => hookedInAny nodes
  | .var _ => false
  | .identifier _ => false
  | .assign _ value => hooked value
  | .inspect _ => true

def hookedInAny : List Node → Bool
  | [] => false
  | node :: nodes => hooked node || hookedInAny nodes

end

theorem strippedAll_eq_map : ∀ nodes, strippedAll nodes = nodes.map stripped
  | [] => rfl
  | node :: nodes => by rw [strippedAll, strippedAll_eq_map nodes, List.map_cons]

theorem hookedInAny_eq_any : ∀ nodes, hookedInAny nodes = nodes.any hooked
  | [] => rfl
  | node :: nodes => by rw [hookedInAny, hookedInAny_eq_any nodes, List.any_cons]

/-! ## Trees without hooks -/

/-- A stripped tree has no hook outside of targets. -/
theorem hooked_stripped (n : Node) : n.stripped.hooked = false := by
  induction n with
  | block nodes ih =>
    rw [stripped, hooked, hookedInAny_eq_any, strippedAll_eq_map, List.any_map,
      List.any_eq_false]
    exact fun node hnode => by simp [ih node hnode]
  | inspect inner ih => rw [stripped, ih]
  | _ => simp_all [stripped, hooked]

/-- There is nothing to strip where there is no hook. -/
theorem stripped_of_not_hooked {n : Node} (h : n.hooked = false) : n.stripped = n := by
  induction n with
  | block nodes ih =>
    rw [hooked, hookedInAny_eq_any, List.any_eq_false] at h
    have hall : ∀ node ∈ nodes, node.stripped = node := fun node hnode =>
      ih node hnode (by simpa using h node hnode)
    rw [stripped, strippedAll_eq_map, List.map_congr_left hall, List.map_id']
  | inspect inner ih => cases h
  | _ => simp_all [stripped, hooked]

/-! ## Runs without hooks -/

open TreeScript.Action Scopes

/-- A stripped tree runs alike. The records differ, since a hook is a node that leaves its
own. -/
theorem matches_stripped (laps : Nat) (n : Node) :
    Matches Eq Eq (n.evaluate laps) (n.stripped.evaluate laps) := by
  have hP := (compositional_matches Eq).congruence
  induction n with
  | literal value => exact matches_evaluate laps _
  | print inner ih =>
    simp only [stripped, evaluate]
    exact hP.visiting _ (hP.bind ih fun value => hP.bind (matches_print value) fun _ =>
      hP.bind (hP.note _ rfl) fun _ => hP.pure _)
  | binary op left right ihl ihr =>
    simp only [stripped, evaluate]
    exact hP.visiting _ (hP.binary op ihl ihr)
  | ifThen test body iht ihb =>
    simp only [stripped, evaluate]
    refine hP.visiting _ (hP.bind (hP.condition _ iht) fun holds => ?_)
    cases holds with
    | false => exact hP.pure _
    | true => exact hP.bind (hP.note _ rfl) fun _ => ihb.inScope_eq
  | ifElse test body otherwise iht ihb iho =>
    simp only [stripped, evaluate]
    refine hP.visiting _ (hP.bind (hP.condition _ iht) fun holds => ?_)
    cases holds with
    | false => exact hP.bind (hP.note _ rfl) fun _ => iho.inScope_eq
    | true => exact hP.bind (hP.note _ rfl) fun _ => ihb.inScope_eq
  | whileLoop test body iht ihb =>
    simp only [stripped, evaluate]
    have hlap := Matches.inScope_eq (hP.bind ihb fun _ => hP.pure ())
    exact hP.visiting _ (hP.bind (hP.repeatWhile (hP.condition _ iht) hlap _ _) fun _ =>
      hP.bind (hP.note _ rfl) fun _ => hP.pure _)
  | block nodes ih =>
    -- both blocks have as many nodes, which is what their first record says
    simp only [stripped, strippedAll_eq_map, evaluate, List.length_map]
    exact hP.visiting _ (hP.bind (hP.note _ rfl) fun _ =>
      Matches.inScope_eq (hP.evaluateAll stripped nodes _ ih))
  | var name => exact matches_evaluate laps _
  | identifier name => exact matches_evaluate laps _
  | assign target value _ ihv =>
    simp only [stripped, evaluate]
    exact hP.visiting _ (hP.bind ihv fun v => matches_assignTo target v)
  | inspect inner ih =>
    simp only [stripped, evaluate]
    exact ih.visiting_left _

/-- A tree does what it does without its hooks, and none is left to strip. -/
theorem equivalent_stripped (n : Node) :
    Equivalent n n.stripped ∧ n.stripped.stripped = n.stripped ∧ n.stripped.hooked = false := by
  have hhooked := n.hooked_stripped
  exact ⟨equivalent_of_matches fun laps => matches_stripped laps n,
    stripped_of_not_hooked hhooked, hhooked⟩

end Node

end TreeScript
