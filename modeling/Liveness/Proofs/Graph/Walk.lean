import Liveness.Solver.Problem

/-! Edges and walks.

A graph is made by adding points, joining points that are there, and moving the entry.
Whatever the order of these steps, its edges join points that it has (`Built.closed`), and
that is all the theory asks of a graph. The neighbours of a point on its two sides are two
readings of one list of edges, so a point feeds exactly the points that read it, in either
direction. -/
namespace Liveness.FlowGraph
variable {g : FlowGraph}

/-- Edges join points of the graph. -/
def Closed (g : FlowGraph) : Prop := ∀ e ∈ g.edges, e.source < g.size ∧ e.target < g.size

instance (g : FlowGraph) : Decidable g.Closed :=
  inferInstanceAs (Decidable (∀ e ∈ g.edges, e.source < g.size ∧ e.target < g.size))

/-- The graphs that can be made. -/
inductive Built : FlowGraph → Prop
  | new : Built {}
  | add {g : FlowGraph} (n : NodeId) : Built g → Built (g.add n).2
  | setEntry {g : FlowGraph} (i : Nat) : Built g → Built (g.setEntry i)
  | connect {g g' : FlowGraph} {source target e : Nat} {branch : Branch} :
      Built g → g.connect? source branch target = some (e, g') → Built g'

theorem size_le_size_add (g : FlowGraph) (n : NodeId) : g.size ≤ (g.add n).2.size := by
  unfold add
  split
  · exact Nat.le_refl _
  · simp [size]

theorem edges_add (g : FlowGraph) (n : NodeId) : (g.add n).2.edges = g.edges := by
  unfold add
  split <;> rfl

theorem Closed.add (h : g.Closed) (n : NodeId) : (g.add n).2.Closed := by
  intro e he
  rw [edges_add] at he
  have := g.size_le_size_add n
  have := h e he
  omega

/-- An edge that is made joins points that are there and stands in front of the others. -/
theorem connect?_eq_some {g' : FlowGraph} {source target k : Nat} {branch : Branch}
    (h : g.connect? source branch target = some (k, g')) :
    (source < g.size ∧ target < g.size) ∧
      g' = { g with edges := ⟨source, branch, target⟩ :: g.edges } := by
  unfold connect? at h
  split at h
  · next inside =>
    simp only [Bool.and_eq_true, decide_eq_true_eq] at inside
    exact ⟨inside, (Prod.mk.inj (Option.some.inj h)).2.symm⟩
  · cases h

theorem Closed.connect {g' : FlowGraph} {source target k : Nat} {branch : Branch} (h : g.Closed)
    (hc : g.connect? source branch target = some (k, g')) : g'.Closed := by
  obtain ⟨inside, rfl⟩ := connect?_eq_some hc
  intro e he
  rcases List.mem_cons.mp he with rfl | he
  · exact inside
  · exact h e he

/-- However a graph was made, its edges join points that it has. -/
theorem Built.closed (h : g.Built) : g.Closed := by
  induction h with
  | new => intro e he; cases he
  | add n _ ih => exact ih.add n
  | setEntry i _ ih => exact ih
  | connect _ hc ih => exact ih.connect hc

/-! ### Neighbours -/

theorem mem_successors {i j : Nat} :
    j ∈ g.successors i ↔ ∃ e ∈ g.edges, e.source = i ∧ e.target = j := by
  simp [successors, outEdges, and_assoc]

theorem mem_predecessors {i j : Nat} :
    j ∈ g.predecessors i ↔ ∃ e ∈ g.edges, e.target = i ∧ e.source = j := by
  simp [predecessors, inEdges, and_assoc]

/-- A point reads the points that feed it. -/
theorem mem_readers_iff {d : Direction} {i j : Nat} : j ∈ g.readers d i ↔ i ∈ g.feeders d j := by
  cases d with
  | forward =>
    rw [readers, feeders, mem_successors, mem_predecessors]
    exact ⟨fun ⟨e, he, hs, ht⟩ => ⟨e, he, ht, hs⟩, fun ⟨e, he, ht, hs⟩ => ⟨e, he, hs, ht⟩⟩
  | backward =>
    rw [readers, feeders, mem_predecessors, mem_successors]
    exact ⟨fun ⟨e, he, ht, hs⟩ => ⟨e, he, hs, ht⟩, fun ⟨e, he, hs, ht⟩ => ⟨e, he, ht, hs⟩⟩

theorem Closed.successor_lt (h : g.Closed) {i j : Nat} (hj : j ∈ g.successors i) : j < g.size := by
  obtain ⟨e, he, _, rfl⟩ := mem_successors.mp hj
  exact (h e he).2

theorem Closed.predecessor_lt (h : g.Closed) {i j : Nat} (hj : j ∈ g.predecessors i) :
    j < g.size := by
  obtain ⟨e, he, _, rfl⟩ := mem_predecessors.mp hj
  exact (h e he).1

theorem Closed.feeder_lt (h : g.Closed) {d : Direction} {i j : Nat} (hj : j ∈ g.feeders d i) :
    j < g.size := by
  cases d with
  | forward => exact h.predecessor_lt hj
  | backward => exact h.successor_lt hj

/-! ### Walks -/

/-- A walk along edges from one point to another, with the points it leaves on the way. -/
inductive Walk (g : FlowGraph) : Nat → List Nat → Nat → Prop
  | stay (i : Nat) : Walk g i [] i
  | go {i j last : Nat} {left : List Nat} :
      j ∈ g.successors i → Walk g j left last → Walk g i (i :: left) last

end Liveness.FlowGraph
