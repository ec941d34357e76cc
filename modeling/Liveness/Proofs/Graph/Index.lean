import Liveness.Proofs.Graph.Construction
import Liveness.Proofs.Table

/-! Graphs that look their nodes up.

A graph finds the point of a node by going through its points. It can as well keep a table from
nodes to points beside them, and ask that instead. Whether a node is added is then decided by the
table alone, so the two are one only as long as they agree (`InStep`). Adding a node keeps them in
agreement, since it puts the node into both or into neither, and no other change touches either. -/
namespace Liveness

/-- A graph and the points of its nodes. -/
structure IndexedGraph where
  graph : FlowGraph := {}
  index : Table NodeId Nat := .empty

namespace IndexedGraph
open FlowGraph
variable {x x' : IndexedGraph}

/-- The point of a node, which is added if the table does not have it. -/
def add (x : IndexedGraph) (n : NodeId) : Nat × IndexedGraph :=
  match x.index.find? n with
  | some i => (i, x)
  | none =>
    (x.graph.size,
      { graph := { x.graph with
          points := x.graph.points.push (.node n)
          start := some (x.graph.start.getD x.graph.size) }
        index := x.index.insert n x.graph.size })

/-- The graph after a change. Only an addition looks at the table. -/
def change? (x : IndexedGraph) : Change → Option IndexedGraph
  | .add n => some (x.add n).2
  | c => (x.graph.change? c).map fun graph => { x with graph }

def changes? (x : IndexedGraph) (cs : List Change) : Option IndexedGraph := cs.foldlM change? x

/-- The table says where the nodes are. -/
def InStep (x : IndexedGraph) : Prop := ∀ n, x.index.find? n = x.graph.indexOf? n

theorem inStep_new : InStep {} := fun _ => rfl

/-- A point that is added at the end is found there, unless its node was found before. -/
theorem indexOf?_push (g : FlowGraph) (start : Option Nat) (n m : NodeId) :
    indexOf? { g with points := g.points.push (.node n), start } m =
      (g.indexOf? m).or (if m == n then some g.size else none) := by
  have last : [Point.node n].findIdx? (· == .node m) = if m == n then some 0 else none := by
    by_cases same : m = n
    · simp [same]
    · simp [same, Ne.symm same]
  rw [indexOf?, indexOf?, Array.toList_push, List.findIdx?_append, last, Array.length_toList, size]
  cases m == n <;> simp

theorem node?_eq_some {c : Change} {n : NodeId} (h : c.node? = some n) : c = .add n := by
  cases c with
  | add m => exact congrArg Change.add (Option.some.inj h)
  | _ => cases h

/-- Where no node is added, points stay as they are. -/
theorem points_of_change {g g' : FlowGraph} {c : Change} (none : c.node? = none)
    (h : g.change? c = some g') : g'.points = g.points := by
  cases c with
  | add n => cases none
  | connect source branch target => rw [change?_of_edge rfl h]
  | leave source branch => rw [change?_of_edge rfl h]
  | setEntry i =>
    obtain rfl := Option.some.inj h
    rfl

theorem change?_eq {c : Change} (none : c.node? = none) :
    x.change? c = (x.graph.change? c).map fun graph => { x with graph } := by
  cases c with
  | add n => cases none
  | _ => rfl

namespace InStep

theorem keep (h : x.InStep) {g : FlowGraph} (same : g.points = x.graph.points) :
    InStep { x with graph := g } := by
  intro n
  rw [h n, indexOf?, indexOf?, same]

/-- Asked of the table or of the points, an addition does the same. -/
theorem add_eq (h : x.InStep) (n : NodeId) :
    (x.add n).1 = (x.graph.add n).1 ∧ (x.add n).2.graph = (x.graph.add n).2 := by
  rw [add, FlowGraph.add, h n]
  cases x.graph.indexOf? n with
  | some i => exact ⟨rfl, rfl⟩
  | none => exact ⟨rfl, rfl⟩

theorem add (h : x.InStep) (n : NodeId) : (x.add n).2.InStep := by
  rw [IndexedGraph.add]
  cases found : x.index.find? n with
  | some i => exact h
  | none =>
    intro m
    show (x.index.insert n x.graph.size).find? m = indexOf? _ m
    rw [Table.find?_insert, indexOf?_push, ← h m]
    by_cases same : m = n
    · rw [same, found, beq_self_eq_true]
      rfl
    · rw [beq_eq_false_iff_ne.mpr same]
      exact Option.or_none.symm

/-- A change does the same to the points with a table beside them, and keeps the two in step. -/
theorem change (h : x.InStep) (c : Change) :
    (x.change? c).map (·.graph) = x.graph.change? c ∧
      ∀ x', x.change? c = some x' → x'.InStep := by
  cases added : c.node? with
  | some n =>
    obtain rfl := node?_eq_some added
    exact ⟨congrArg some (h.add_eq n).2, fun x' hx => Option.some.inj hx ▸ h.add n⟩
  | none =>
    rw [change?_eq added]
    constructor
    · rw [Option.map_map]
      exact Option.map_id_apply
    · intro x' hx
      obtain ⟨graph, made, rfl⟩ := Option.map_eq_some_iff.mp hx
      exact h.keep (points_of_change added made)

/-- Many changes. -/
theorem changes (h : x.InStep) (cs : List Change) :
    (x.changes? cs).map (·.graph) = x.graph.changes? cs ∧
      ∀ x', x.changes? cs = some x' → x'.InStep := by
  induction cs generalizing x with
  | nil => exact ⟨rfl, fun x' same => Option.some.inj same ▸ h⟩
  | cons c cs ih =>
    obtain ⟨graph, inStep⟩ := h.change c
    unfold IndexedGraph.changes? FlowGraph.changes?
    rw [List.foldlM_cons, List.foldlM_cons, ← graph]
    cases next : x.change? c with
    | none => exact ⟨rfl, fun x' none => by cases none⟩
    | some y => exact ih (inStep y next)

end InStep

/-- **The table stays in step with the points.** Whatever nodes were added, points joined and
entries set: a graph that looks nodes up in a table is made by the same changes, finds every node
where the points have it, and gives a node that is added the same point. -/
theorem changes_in_step (cs : List Change) (g : FlowGraph)
    (made : FlowGraph.changes? {} cs = some g) :
    ∃ x, changes? {} cs = some x ∧ x.graph = g ∧
      (∀ n i, x.index.find? n = some i ↔ g.point? i = some (.node n)) ∧
      ∀ n, (x.add n).1 = (g.add n).1 ∧ (x.add n).2.graph = (g.add n).2 := by
  obtain ⟨graph, inStep⟩ := inStep_new.changes cs
  rw [made] at graph
  obtain ⟨x, run, rfl⟩ := Option.map_eq_some_iff.mp graph
  have step := inStep x run
  refine ⟨x, run, rfl, fun n i => ?_, step.add_eq⟩
  rw [step n]
  exact (records_of_changes made).indexOf?_eq_some

end IndexedGraph
end Liveness
