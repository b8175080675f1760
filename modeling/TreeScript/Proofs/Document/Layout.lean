import Mathlib.Data.List.Forall2
import TreeScript.Document.Tree
import TreeScript.Document.Writer
import TreeScript.Proofs.Document.Json

/-!
# Layouts of a tree

A tree can be written in many ways. `Node.Layout n j` says that `j` is one of them: the
strings and keys are written with any escapes, a variant without content is a name or an
object with a null, and a node with named parts is a list of them in their order
(`Fields.list`) or an object with them in any order and with other members between them
(`Fields.object`). An absent part may be given as null. The numbers are written as
`encode` writes them.
-/

namespace TreeScript

namespace Document

/-- A string with these characters. -/
def Named (name : String) (j : Json) : Prop :=
  ∃ ps, Denotes ps name.toList ∧ j = .string ps

/-- An object with one member. -/
def Tagged (name : String) (content : Json → Prop) (j : Json) : Prop :=
  ∃ key c, Denotes key name.toList ∧ content c ∧ j = .object [(key, c)]

/-- A variant without content. -/
def Bare (name : String) (j : Json) : Prop :=
  Named name j ∨ Tagged name (· = .null) j

/-- A part of a node: its name, and the ways in which it may be written. -/
abbrev Part : Type :=
  String × (Json → Prop)

/-- Members of an object that are parts, in their order, and others between them with
names that no part has. -/
inductive Mixed (names : List String) : List Part → List (List Piece × Json) → Prop where
  | nil : Mixed names [] []
  | part {parts : List Part} {members : List (List Piece × Json)} {part : Part}
      {key : List Piece} {j : Json} : Denotes key part.1.toList → part.2 j →
      Mixed names parts members → Mixed names (part :: parts) ((key, j) :: members)
  | other {parts : List Part} {members : List (List Piece × Json)} {name : String}
      {key : List Piece} (j : Json) : Denotes key name.toList → name ∉ names →
      Mixed names parts members → Mixed names parts ((key, j) :: members)

/-- The parts of a node with the given names for parts. -/
inductive Fields (names : List String) (parts : List Part) : Json → Prop where
  | list {items : List Json} : List.Forall₂ Prod.snd parts items → Fields names parts (.list items)
  | object {parts' : List Part} {members : List (List Piece × Json)} : parts'.Perm parts →
      Mixed names parts' members → Fields names parts (.object members)

end Document

open Document

def Operator.Layout (op : Operator) : Json → Prop :=
  Bare op.name

def Value.Layout : Value → Json → Prop
  | .number x => Tagged "Number" fun j =>
    ∃ f : Figure, f.chars = (Number.Style.document.text x).toList ∧ j = .number f
  | .boolean b => Tagged "Boolean" (· = .boolean b)
  | .string s => Tagged "String" (Named s)
  | .unit => Bare "Unit"

mutual

/-- The ways to write a tree. -/
def Node.Layout : Node → Json → Prop
  | .literal v => Tagged "Literal" v.Layout
  | .print inner => Tagged "Print" inner.Layout
  | .binary op left right => Tagged "BinaryOperator" <| Fields Compound.binary.fields
    [("op", op.Layout), ("left", left.Layout), ("right", right.Layout)]
  | .ifThen condition body => Tagged "If" fun j =>
    Fields Compound.conditional.fields
        [("condition", condition.Layout), ("body", body.Layout)] j ∨
      Fields Compound.conditional.fields
        [("condition", condition.Layout), ("body", body.Layout), ("else_body", (· = .null))] j
  | .ifElse condition body otherwise => Tagged "If" <| Fields Compound.conditional.fields
    [("condition", condition.Layout), ("body", body.Layout), ("else_body", otherwise.Layout)]
  | .whileLoop condition body => Tagged "While" <| Fields Compound.whileLoop.fields
    [("condition", condition.Layout), ("body", body.Layout)]
  | .block nodes => Tagged "Block" fun j => ∃ items, j = .list items ∧ Node.LayoutAll nodes items
  | .var name => Tagged "Var" (Named name)
  | .identifier name => Tagged "Identifier" (Named name)
  | .assign target value => Tagged "Assign" <| Fields Compound.assign.fields
    [("target", target.Layout), ("value", value.Layout)]
  | .inspect inner => Tagged "DebugGetValue" inner.Layout

def Node.LayoutAll : List Node → List Json → Prop
  | [], [] => True
  | n :: nodes, j :: items => n.Layout j ∧ Node.LayoutAll nodes items
  | _, _ => False

end

end TreeScript
