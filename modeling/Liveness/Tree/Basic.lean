import Liveness.Tree.Kind

/-! Programs as trees of nodes.

Nodes live in one store and are named by their position in it, so that analyses can
attach facts to a node by its number. A node lists its children and knows one parent:
the last node that took it as a child. A child may be listed by several nodes, or twice
by one; the lists are never changed behind a node's back, only the parent link moves.

Nothing here stops a node from being put below itself. `Tree.Acyclic` is the condition
that callers keep, and the only one that walks along the links need. -/
namespace Liveness

abbrev NodeId := Nat

structure Node where
  kind : Kind
  children : List NodeId := []
  parent : Option NodeId := none
deriving DecidableEq, Repr

structure Tree where
  nodes : Array Node := #[]
deriving DecidableEq, Repr

namespace Tree

def size (t : Tree) : Nat := t.nodes.size

/-- A number that names no node reads as an empty statement without links. -/
def node (t : Tree) (n : NodeId) : Node := t.nodes[n]?.getD { kind := .empty }

def kind (t : Tree) (n : NodeId) : Kind := (t.node n).kind

def children (t : Tree) (n : NodeId) : List NodeId := (t.node n).children

def parent (t : Tree) (n : NodeId) : Option NodeId := (t.node n).parent

def child? (t : Tree) (n : NodeId) (i : Nat) : Option NodeId := (t.children n)[i]?

/-- The identifier of a name node. -/
def name? (t : Tree) (n : NodeId) : Option String := (t.kind n).name?

def isFunction (t : Tree) (n : NodeId) : Bool := (t.kind n).isFunction

/-! ### Growing the tree -/

def setParent (t : Tree) (p c : NodeId) : Tree :=
  ⟨t.nodes.modify c fun node => { node with parent := some p }⟩

/-- A new node above `children`. -/
def add (t : Tree) (kind : Kind) (children : List NodeId) : NodeId × Tree :=
  (t.size, children.foldl (·.setParent t.size ·) ⟨t.nodes.push { kind, children }⟩)

/-- Puts `c` behind the children of `p`. -/
def adopt (t : Tree) (p c : NodeId) : Tree :=
  setParent ⟨t.nodes.modify p fun node => { node with children := node.children ++ [c] }⟩ p c

/-! ### Upwards -/

/-- A node and up to `k` of the nodes above it, nearest first. -/
def upward (t : Tree) : Nat → NodeId → List NodeId
  | 0, n => [n]
  | k + 1, n => n :: match t.parent n with
    | some p => t.upward k p
    | none => []

/-- A node and all nodes above it, nearest first. No chain of parents in an acyclic tree
is longer than the tree. -/
def ancestors (t : Tree) (n : NodeId) : List NodeId := t.upward t.size n

/-! ### Shape -/

/-- Some ranking puts every child below the nodes that list it, so that no node is below
itself. -/
def Acyclic (t : Tree) : Prop :=
  ∃ rank : NodeId → Nat, ∀ n, ∀ c ∈ t.children n, rank c < rank n

end Tree
end Liveness
