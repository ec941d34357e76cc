import Liveness.Tree.Basic

/-! Walks downward.

A walk gives each node a value made from the values of nodes below it. It is written as
one step, which is handed a way to ask for those values. Nothing is computed that is not
asked for. That matters because a child may be listed many times: the places of a node can
outnumber the nodes by far, and a walk that looks only at conditions, or that stops at the
first fault, must not pay for places it never looks at.

The depth of a walk is bounded by the number of nodes, which no path downward in an acyclic
tree exceeds. -/
namespace Liveness.Tree

/-- The value at a node, given the values at the nodes below it. -/
abbrev Step (α : Type u) := (NodeId → α) → NodeId → α

/-- The value at a node of a walk that goes down the given number of levels and finds
`stop` there. -/
def descendTo {α : Type u} (step : Step α) (stop : α) : Nat → NodeId → α
  | 0, _ => stop
  | k + 1, n => step (descendTo step stop k) n

/-- The value at a node of a walk over everything below it. -/
def descend {α : Type u} (t : Tree) (step : Step α) (stop : α) (n : NodeId) : α :=
  descendTo step stop (t.size + 1) n

/-- A node comes before what is below it, and its children come in order. -/
def preorderStep (t : Tree) : Step (List NodeId) := fun below n =>
  n :: (t.children n).flatMap below

/-- The nodes at and below `n`, in the order of their text. A node that is listed several
times comes once for each place. -/
def preorder (t : Tree) (n : NodeId) : List NodeId := t.descend t.preorderStep [] n

end Liveness.Tree
