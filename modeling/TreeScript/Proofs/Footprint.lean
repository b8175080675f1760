import Mathlib.Data.Set.Defs
import TreeScript.Proofs.Runs

/-!
# What a tree touches

`Node.writes` lists the names that a tree may bind, those that it declares anywhere and those
that it assigns to, and `Node.prints` says whether it has a print in it. A relation of actions
is `Action.Touching S mayPrint` if it is a congruence that passes scopes and holds of what can
be done with the names of `S`, and of printing if that may happen. It holds of the evaluation
of every tree that has no other names and prints only if it may (`Action.Touching.evaluate`).
-/

namespace TreeScript

namespace Node

mutual

/-- The names that a tree may bind: those that it declares anywhere and its targets. -/
def writes : Node → List String
  | .literal _ => []
  | .print inner => writes inner
  | .binary _ left right => writes left ++ writes right
  | .ifThen test body => writes test ++ writes body
  | .ifElse test body otherwise => writes test ++ writes body ++ writes otherwise
  | .whileLoop test body => writes test ++ writes body
  | .block nodes => writesOfAll nodes
  | .var name => [name]
  | .identifier _ => []
  | .assign target value => targetName target ++ writes target ++ writes value
  | .inspect inner => writes inner

def writesOfAll : List Node → List String
  | [] => []
  | node :: nodes => writes node ++ writesOfAll nodes

end

mutual

/-- Whether there is a print anywhere in a tree. -/
def prints : Node → Bool
  | .literal _ => false
  | .print _ => true
  | .binary _ left right => prints left || prints right
  | .ifThen test body => prints test || prints body
  | .ifElse test body otherwise => prints test || prints body || prints otherwise
  | .whileLoop test body => prints test || prints body
  | .block nodes => printsInAny nodes
  | .var _ => false
  | .identifier _ => false
  | .assign target value => prints target || prints value
  | .inspect inner => prints inner

def printsInAny : List Node → Bool
  | [] => false
  | node :: nodes => prints node || printsInAny nodes

end

theorem writesOfAll_eq_flatMap : ∀ nodes, writesOfAll nodes = nodes.flatMap writes
  | [] => rfl
  | node :: nodes => by rw [writesOfAll, writesOfAll_eq_flatMap nodes, List.flatMap_cons]

theorem printsInAny_eq_any : ∀ nodes, printsInAny nodes = nodes.any prints
  | [] => rfl
  | node :: nodes => by rw [printsInAny, printsInAny_eq_any nodes, List.any_cons]

theorem declared_subset_writes (n : Node) : n.declared ⊆ n.writes := by
  intro x hx
  induction n with
  | _ => grind [declared, writes]

theorem assigned_subset_writes (n : Node) : n.assigned ⊆ n.writes := by
  intro x hx
  induction n with
  | block nodes ih =>
    rw [assigned, assignedInAll_eq_flatMap] at hx
    obtain ⟨node, hnode, hx⟩ := List.mem_flatMap.1 hx
    rw [writes, writesOfAll_eq_flatMap]
    exact List.mem_flatMap.2 ⟨node, hnode, ih node hnode hx⟩
  | _ => grind [assigned, writes]

theorem writes_subset_names (n : Node) : n.writes ⊆ n.names := by
  intro x hx
  induction n with
  | block nodes ih =>
    rw [writes, writesOfAll_eq_flatMap] at hx
    obtain ⟨node, hnode, hx⟩ := List.mem_flatMap.1 hx
    rw [names, namesOfAll_eq_flatMap]
    exact List.mem_flatMap.2 ⟨node, hnode, ih node hnode hx⟩
  | assign target => cases target <;> grind [names, writes, targetName]
  | _ => grind [names, writes]

end Node

namespace Action

/-- A congruence that passes scopes, and holds of what can be done with the names of a set,
and of printing if that may happen. -/
structure Touching (P : ∀ {α : Type}, Action α → Action α → Prop) (S : Set String)
    (mayPrint : Prop) : Prop extends Congruence P where
  inScope : ∀ {α : Type} {x y : Action α}, P x y → P (inScope x) (inScope y)
  declare : ∀ name ∈ S, P (declare name) (declare name)
  get : ∀ name ∈ S, P (get name) (get name)
  assign : ∀ name ∈ S, ∀ value, P (assign name value) (assign name value)
  print : mayPrint → ∀ value, P (print value) (print value)

namespace Touching

variable {P : ∀ {α : Type}, Action α → Action α → Prop} {S : Set String} {mayPrint : Prop}
  (hP : Touching P S mayPrint)

include hP

theorem assignTo {target : Node} (h : ∀ x ∈ target.names, x ∈ S) (value : Value) :
    P (Action.assignTo target value) (Action.assignTo target value) := by
  unfold Action.assignTo
  split
  · exact hP.bind (hP.assign _ (h _ (List.mem_singleton_self _)) value) fun _ =>
      hP.bind (hP.note _ rfl) fun _ => hP.pure _
  · exact hP.fail _ (by simp [RuntimeError.kind])

/-- The relation holds of the evaluation of a tree with the names of the set. -/
theorem evaluate (laps : Nat) {n : Node} : (∀ x ∈ n.names, x ∈ S) →
    (n.prints = true → mayPrint) → P (n.evaluate laps) (n.evaluate laps) := by
  have hC := hP.toCongruence
  induction n with
  | literal value =>
    intro _ _
    simp only [Node.evaluate]
    exact hC.visiting _ (hC.pure value)
  | print inner ih =>
    intro hS hprint
    simp only [Node.evaluate]
    exact hC.visiting _ (hC.bind (ih hS fun _ => hprint rfl) fun value =>
      hC.bind (hP.print (hprint rfl) value) fun _ => hC.bind (hC.note _ rfl) fun _ => hC.pure _)
  | binary op left right ihl ihr =>
    intro hS hprint
    simp only [Node.names, List.forall_mem_append] at hS
    simp only [Node.prints, Bool.or_eq_true, or_imp] at hprint
    simp only [Node.evaluate]
    exact hC.visiting _ (hC.binary op (ihl hS.1 hprint.1) (ihr hS.2 hprint.2))
  | ifThen test body iht ihb =>
    intro hS hprint
    simp only [Node.names, List.forall_mem_append] at hS
    simp only [Node.prints, Bool.or_eq_true, or_imp] at hprint
    simp only [Node.evaluate]
    refine hC.visiting _ (hC.bind (hC.condition _ (iht hS.1 hprint.1)) fun holds => ?_)
    cases holds with
    | false => exact hC.pure _
    | true => exact hC.bind (hC.note _ rfl) fun _ => hP.inScope (ihb hS.2 hprint.2)
  | ifElse test body otherwise iht ihb iho =>
    intro hS hprint
    simp only [Node.names, List.forall_mem_append] at hS
    simp only [Node.prints, Bool.or_eq_true, or_imp] at hprint
    simp only [Node.evaluate]
    refine hC.visiting _ (hC.bind (hC.condition _ (iht hS.1.1 hprint.1.1)) fun holds => ?_)
    cases holds with
    | false => exact hC.bind (hC.note _ rfl) fun _ => hP.inScope (iho hS.2 hprint.2)
    | true => exact hC.bind (hC.note _ rfl) fun _ => hP.inScope (ihb hS.1.2 hprint.1.2)
  | whileLoop test body iht ihb =>
    intro hS hprint
    simp only [Node.names, List.forall_mem_append] at hS
    simp only [Node.prints, Bool.or_eq_true, or_imp] at hprint
    simp only [Node.evaluate]
    have hlap := hP.inScope (hC.bind (ihb hS.2 hprint.2) fun _ => hC.pure ())
    exact hC.visiting _ (hC.bind (hC.repeatWhile (hC.condition _ (iht hS.1 hprint.1)) hlap _ _)
      fun _ => hC.bind (hC.note _ rfl) fun _ => hC.pure _)
  | block nodes ih =>
    intro hS hprint
    simp only [Node.names, Node.namesOfAll_eq_flatMap] at hS
    simp only [Node.prints, Node.printsInAny_eq_any, List.any_eq_true] at hprint
    simp only [Node.evaluate]
    have hall : P (Node.evaluateAll laps .unit nodes)
        (Node.evaluateAll laps .unit (nodes.map id)) :=
      hC.evaluateAll id nodes .unit fun node hn =>
        ih node hn (fun x hx => hS x (List.mem_flatMap_of_mem hn hx)) fun h => hprint ⟨node, hn, h⟩
    rw [List.map_id] at hall
    exact hC.visiting _ (hC.bind (hC.note _ rfl) fun _ => hP.inScope hall)
  | var name =>
    intro hS _
    simp only [Node.evaluate]
    exact hC.visiting _ (hC.bind (hP.declare _ (hS _ (List.mem_singleton_self _))) fun _ =>
      hC.bind (hC.note _ rfl) fun _ => hC.pure _)
  | identifier name =>
    intro hS _
    simp only [Node.evaluate]
    exact hC.visiting _ (hP.get _ (hS _ (List.mem_singleton_self _)))
  | assign target value _ ihv =>
    intro hS hprint
    simp only [Node.names, List.forall_mem_append] at hS
    simp only [Node.prints, Bool.or_eq_true, or_imp] at hprint
    simp only [Node.evaluate]
    exact hC.visiting _ (hC.bind (ihv hS.2 hprint.2) fun v => hP.assignTo hS.1 v)
  | inspect inner ih =>
    intro hS hprint
    simp only [Node.evaluate]
    exact hC.visiting _ (ih hS hprint)

end Touching

end Action

end TreeScript
