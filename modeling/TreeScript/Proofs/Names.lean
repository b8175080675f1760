import TreeScript.Node

/-!
# Names in trees

`Node.induct` is induction on trees, with a hypothesis for every node of a
sequence. Three lists say which names a tree uses: `Node.names` has all of them,
`Node.assigned` those that stand as the target of an assignment, and
`Node.declared` those that the tree declares in the scope it is evaluated in.
-/

namespace TreeScript.Node

/-! ## Induction -/

@[elab_as_elim, induction_eliminator]
theorem induct {motive : Node → Prop}
    (literal : ∀ value, motive (.literal value))
    (print : ∀ inner, motive inner → motive (.print inner))
    (binary : ∀ op left right, motive left → motive right → motive (.binary op left right))
    (ifThen : ∀ test body, motive test → motive body → motive (.ifThen test body))
    (ifElse : ∀ test body otherwise, motive test → motive body → motive otherwise →
      motive (.ifElse test body otherwise))
    (whileLoop : ∀ test body, motive test → motive body → motive (.whileLoop test body))
    (block : ∀ nodes, (∀ node ∈ nodes, motive node) → motive (.block nodes))
    (var : ∀ name, motive (.var name))
    (identifier : ∀ name, motive (.identifier name))
    (assign : ∀ target value, motive target → motive value → motive (.assign target value))
    (inspect : ∀ inner, motive inner → motive (.inspect inner)) (n : Node) : motive n :=
  @Node.rec motive (fun nodes => ∀ node ∈ nodes, motive node) literal print binary ifThen ifElse
    whileLoop block var identifier assign inspect (by simp)
    (fun _ _ head tail => by simpa using ⟨head, tail⟩) n

/-! ## Names -/

mutual

/-- All names of a tree, targets included. -/
def names : Node → List String
  | .literal _ => []
  | .print inner => names inner
  | .binary _ left right => names left ++ names right
  | .ifThen test body => names test ++ names body
  | .ifElse test body otherwise => names test ++ names body ++ names otherwise
  | .whileLoop test body => names test ++ names body
  | .block nodes => namesOfAll nodes
  | .var name => [name]
  | .identifier name => [name]
  | .assign target value => names target ++ names value
  | .inspect inner => names inner

def namesOfAll : List Node → List String
  | [] => []
  | node :: nodes => names node ++ namesOfAll nodes

end

/-- The name that a node gives to an assignment as its target. -/
def targetName : Node → List String
  | .identifier name => [name]
  | _ => []

mutual

/-- The names that stand as the target of an assignment anywhere in a tree. -/
def assigned : Node → List String
  | .literal _ => []
  | .print inner => assigned inner
  | .binary _ left right => assigned left ++ assigned right
  | .ifThen test body => assigned test ++ assigned body
  | .ifElse test body otherwise => assigned test ++ assigned body ++ assigned otherwise
  | .whileLoop test body => assigned test ++ assigned body
  | .block nodes => assignedInAll nodes
  | .var _ => []
  | .identifier _ => []
  | .assign target value => targetName target ++ assigned target ++ assigned value
  | .inspect inner => assigned inner

def assignedInAll : List Node → List String
  | [] => []
  | node :: nodes => assigned node ++ assignedInAll nodes

end

/-- The names declared outside of every block, branch, loop body and target. -/
def declared : Node → List String
  | .literal _ => []
  | .print inner => declared inner
  | .binary _ left right => declared left ++ declared right
  | .ifThen test _ => declared test
  | .ifElse test _ _ => declared test
  | .whileLoop test _ => declared test
  | .block _ => []
  | .var name => [name]
  | .identifier _ => []
  | .assign _ value => declared value
  | .inspect inner => declared inner

theorem namesOfAll_eq_flatMap : ∀ nodes, namesOfAll nodes = nodes.flatMap names
  | [] => rfl
  | node :: nodes => by rw [namesOfAll, namesOfAll_eq_flatMap nodes, List.flatMap_cons]

theorem assignedInAll_eq_flatMap : ∀ nodes, assignedInAll nodes = nodes.flatMap assigned
  | [] => rfl
  | node :: nodes => by rw [assignedInAll, assignedInAll_eq_flatMap nodes, List.flatMap_cons]

end TreeScript.Node
