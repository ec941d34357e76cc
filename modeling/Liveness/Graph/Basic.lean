import Liveness.Tree.Basic

/-! Control-flow graphs.

A graph has one point for each node of the program it was given, numbered from one in the
order of addition, and the implicit return as point zero: every path that leaves the
function ends there. Edges say under which circumstances control goes from one point to
another. They are kept newest first, which is also the order in which the neighbours of a
point are listed, one entry per edge. -/
namespace Liveness

/-- When control takes an edge. -/
inductive Branch where
  | always
  | onTrue
  | onFalse
  /-- The source throws, perhaps part way through. -/
  | onException
  | synthetic
deriving DecidableEq, Repr

def Branch.label : Branch → String
  | .always => "UNCOND"
  | .onTrue => "ON_TRUE"
  | .onFalse => "ON_FALSE"
  | .onException => "ON_EX"
  | .synthetic => "SYN"

inductive Point where
  | implicitReturn
  | node (id : NodeId)
deriving DecidableEq, Repr

def Point.node? : Point → Option NodeId
  | implicitReturn => none
  | node id => some id

def Point.label (tree : Tree) : Point → String
  | implicitReturn => "IMPLICIT_RETURN"
  | node id => (tree.kind id).label

structure Edge where
  source : Nat
  branch : Branch
  target : Nat
deriving DecidableEq, Repr

structure FlowGraph where
  points : Array Point := #[.implicitReturn]
  /-- Newest first. -/
  edges : List Edge := []
  start : Option Nat := none
deriving DecidableEq, Repr

namespace FlowGraph

def size (g : FlowGraph) : Nat := g.points.size

/-- The number of the implicit return. -/
def exit : Nat := 0

/-- Where control enters. A graph that nothing was added to is entered at its end. -/
def entry (g : FlowGraph) : Nat := g.start.getD exit

def point? (g : FlowGraph) (i : Nat) : Option Point := g.points[i]?

/-- The node at a point. -/
def node? (g : FlowGraph) (i : Nat) : Option NodeId := (g.point? i).bind Point.node?

/-- The point of a node. -/
def indexOf? (g : FlowGraph) (n : NodeId) : Option Nat :=
  g.points.toList.findIdx? (· == .node n)

/-! ### Growing the graph -/

/-- The point of a node, which is added if it is not there. The first point added is where
control enters, unless that was settled before. -/
def add (g : FlowGraph) (n : NodeId) : Nat × FlowGraph :=
  match g.indexOf? n with
  | some i => (i, g)
  | none => (g.size, { g with points := g.points.push (.node n), start := some (g.start.getD g.size) })

def setEntry (g : FlowGraph) (i : Nat) : FlowGraph := { g with start := some i }

/-- An edge between points; its number, or `none` if one of them is missing. -/
def connect? (g : FlowGraph) (source : Nat) (branch : Branch) (target : Nat) :
    Option (Nat × FlowGraph) :=
  if source < g.size && target < g.size then
    some (g.edges.length, { g with edges := { source, branch, target } :: g.edges })
  else none

/-- An edge out of the function. -/
def leave? (g : FlowGraph) (source : Nat) (branch : Branch) : Option (Nat × FlowGraph) :=
  g.connect? source branch exit

/-! ### Neighbours -/

def outEdges (g : FlowGraph) (i : Nat) : List Edge := g.edges.filter (·.source == i)

def inEdges (g : FlowGraph) (i : Nat) : List Edge := g.edges.filter (·.target == i)

def successors (g : FlowGraph) (i : Nat) : List Nat := (g.outEdges i).map (·.target)

def predecessors (g : FlowGraph) (i : Nat) : List Nat := (g.inEdges i).map (·.source)

/-- Whether control can leave a point by an exception. -/
def throws (g : FlowGraph) (i : Nat) : Bool := (g.outEdges i).any (·.branch == .onException)

/-! ### Text -/

/-- The graph in the dot language, points and edges in the order of addition. -/
def dot (g : FlowGraph) (tree : Tree) (title : String) : String :=
  let points := g.points.toList.mapIdx fun i p =>
    "\tn" ++ toString i ++ " [label=\"" ++ p.label tree ++ "\"]\n"
  let edges := g.edges.reverse.map fun e =>
    "\tn" ++ toString e.source ++ " -> n" ++ toString e.target ++ " [label=\"" ++ e.branch.label ++
      "\"]\n"
  "digraph " ++ title ++ " \x7b\n" ++ String.join points ++ String.join edges ++ "\x7d\n"

end FlowGraph
end Liveness
