import Liveness.Graph.Basic

/-! The points of a graph in depth-first post-order.

A search from the entry finishes a point after everything it reaches first, so following
the order a point mostly comes after its successors. That is a good order for facts that
flow backwards, and its reverse for facts that flow forwards. Points the search does not
reach come last, in their own order, so that every point has a place. -/
namespace Liveness

inductive Direction where
  | forward
  | backward
deriving DecidableEq, Repr

/-- A search under way: the points seen, and those left behind, last first. -/
structure Search where
  visited : List Nat := []
  finished : List Nat := []
deriving DecidableEq, Repr

/-- The points of a graph, the first `reachable` of them in post-order. -/
structure PostOrder where
  order : List Nat
  reachable : Nat
deriving DecidableEq, Repr

namespace FlowGraph

/-- Visits a point and, oldest edge first, what it leads to, unless it was visited before.
At most `k` points deep. -/
def visit (g : FlowGraph) : Nat → Search → Nat → Search
  | 0, s, _ => s
  | k + 1, s, i =>
    if i ∈ s.visited then s
    else
      let s := (g.successors i).reverse.foldl (g.visit k) { s with visited := i :: s.visited }
      { s with finished := i :: s.finished }

/-- The search from the entry. It goes deeper only to a new point, so it is never deeper
than there are points. -/
def search (g : FlowGraph) : Search := g.visit g.size {} g.entry

/-- The post-order from the entry, if the entry is a point of the graph. -/
def postOrder? (g : FlowGraph) : Option PostOrder :=
  if g.entry < g.size then
    let s := g.search
    let rest := (List.range g.size).filter fun i => i ∉ s.visited
    some { order := s.finished.reverse ++ rest, reachable := s.finished.length }
  else none

end FlowGraph

namespace PostOrder

/-- The place of a point. -/
def rank (o : PostOrder) (i : Nat) : Nat := o.order.idxOf i

/-- The places of all points. -/
def ranks (o : PostOrder) : List Nat := (List.range o.order.length).map o.rank

/-- The order in which facts that flow in a direction are best computed. -/
def schedule (o : PostOrder) : Direction → List Nat
  | .backward => o.order
  | .forward => (o.order.take o.reachable).reverse ++ o.order.drop o.reachable

end PostOrder
end Liveness
