import Mathlib.Data.List.Nodup
import Liveness.Proofs.Graph.Walk

/-! Graphs are what they were told.

A graph is made by a list of changes: nodes are added, points are joined, the entry is moved.
`Records` says what the graph is then, without saying how it came about: its points are the
implicit return and the nodes in the order of their first addition, its edges are the
connections made, and its entry is where it was moved last, or else the first node. One change
keeps that (`Records.change`), so a list of them does, in whatever order they come.

What the graph is asked about its points and edges then follows from the list of changes alone.
No point stands in it twice, so a node is found where it is and nowhere else; and successors and
predecessors are counted in one list of edges, so that either has an entry for each
connection. -/
namespace Liveness.FlowGraph
variable {g g' : FlowGraph}

/-! ### Changes -/

/-- A step in making a graph. -/
inductive Change where
  | add (n : NodeId)
  | connect (source : Nat) (branch : Branch) (target : Nat)
  | leave (source : Nat) (branch : Branch)
  | setEntry (i : Nat)
deriving DecidableEq, Repr

namespace Change

/-- The node a change adds. -/
def node? : Change → Option NodeId
  | add n => some n
  | _ => none

/-- The edge a change makes. -/
def edge? : Change → Option Edge
  | connect source branch target => some ⟨source, branch, target⟩
  | leave source branch => some ⟨source, branch, exit⟩
  | _ => none

/-- Where a change moves the entry. -/
def moved? : Change → Option Nat
  | setEntry i => some i
  | _ => none

/-- Whether a change joins two points. -/
def joins (i j : Nat) (c : Change) : Bool := c.edge?.any fun e => e.source == i && e.target == j

end Change

/-- The graph after a change, if the points it joins are there. -/
def change? (g : FlowGraph) : Change → Option FlowGraph
  | .add n => some (g.add n).2
  | .connect source branch target => (g.connect? source branch target).map (·.2)
  | .leave source branch => (g.leave? source branch).map (·.2)
  | .setEntry i => some (g.setEntry i)

def changes? (g : FlowGraph) (cs : List Change) : Option FlowGraph := cs.foldlM change? g

/-- The nodes that were added, in the order of their first addition. -/
def added (cs : List Change) : List NodeId := (cs.filterMap Change.node?).eraseDups

/-- The edges that were made, oldest first. -/
def joined (cs : List Change) : List Edge := cs.filterMap Change.edge?

/-- Where the entry was moved last. -/
def lastMoved? (cs : List Change) : Option Nat := cs.reverse.findSome? Change.moved?

/-- Every graph that can be made is made by some changes. -/
theorem Built.exists_changes (h : g.Built) : ∃ cs, changes? {} cs = some g := by
  have snoc : ∀ {g g' : FlowGraph} (c : Change), (∃ cs, changes? {} cs = some g) →
      g.change? c = some g' → ∃ cs, changes? {} cs = some g' := by
    rintro g g' c ⟨cs, run⟩ step
    refine ⟨cs ++ [c], ?_⟩
    rw [changes?, List.foldlM_append, show cs.foldlM change? {} = some g from run]
    simpa using step
  induction h with
  | new => exact ⟨[], rfl⟩
  | add n _ ih => exact snoc (.add n) ih rfl
  | setEntry i _ ih => exact snoc (.setEntry i) ih rfl
  | @connect _ _ source target _ branch _ joined ih =>
    exact snoc (.connect source branch target) ih (by rw [change?, joined]; rfl)

/-! ### What a change does -/

/-- A change that joins points puts its edge in front and does nothing else. -/
theorem change?_of_edge {c : Change} {e : Edge} (he : c.edge? = some e)
    (h : g.change? c = some g') : g' = { g with edges := e :: g.edges } := by
  cases c with
  | add n => cases he
  | connect source branch target =>
    obtain rfl := Option.some.inj he
    obtain ⟨⟨k, _⟩, made, rfl⟩ := Option.map_eq_some_iff.mp h
    exact (connect?_eq_some made).2
  | leave source branch =>
    obtain rfl := Option.some.inj he
    obtain ⟨⟨k, _⟩, made, rfl⟩ := Option.map_eq_some_iff.mp h
    exact (connect?_eq_some made).2
  | setEntry i => cases he

theorem indexOf?_eq_none {n : NodeId} : g.indexOf? n = none ↔ .node n ∉ g.points.toList := by
  rw [indexOf?, List.findIdx?_eq_none_iff]
  constructor
  · intro other listed
    simpa using other _ listed
  · intro absent p hp
    rw [beq_eq_false_iff_ne]
    rintro rfl
    exact absent hp

theorem add_of_indexOf? {n : NodeId} {i : Nat} (h : g.indexOf? n = some i) : g.add n = (i, g) := by
  rw [add, h]

theorem add_of_absent {n : NodeId} (h : .node n ∉ g.points.toList) :
    g.add n = (g.size,
      { g with points := g.points.push (.node n), start := some (g.start.getD g.size) }) := by
  rw [add, indexOf?_eq_none.mpr h]

/-- Adding a node that is there changes nothing. -/
theorem add_of_present {n : NodeId} (h : .node n ∈ g.points.toList) : (g.add n).2 = g := by
  cases found : g.indexOf? n with
  | none => exact absurd h (indexOf?_eq_none.mp found)
  | some i => rw [add_of_indexOf? found]

/-! ### What the graph is -/

/-- A graph is what a list of changes makes. -/
structure Records (cs : List Change) (g : FlowGraph) : Prop where
  nodup : (added cs).Nodup
  points : g.points.toList = .implicitReturn :: (added cs).map .node
  edges : g.edges = (joined cs).reverse
  start : g.start = (lastMoved? cs).or ((added cs).head?.map fun _ => exit + 1)

theorem added_add (cs : List Change) (n : NodeId) :
    added (cs ++ [.add n]) = if n ∈ added cs then added cs else added cs ++ [n] := by
  have one : [Change.add n].filterMap Change.node? = [n] := rfl
  rw [added, added, List.filterMap_append, one, List.eraseDups_append]
  generalize cs.filterMap Change.node? = before
  by_cases old : n ∈ before <;> simp [old, List.removeAll, List.eraseDups_cons]

theorem added_of_node?_eq_none (cs : List Change) {c : Change} (h : c.node? = none) :
    added (cs ++ [c]) = added cs := by
  simp [added, h]

theorem lastMoved?_snoc (cs : List Change) (c : Change) :
    lastMoved? (cs ++ [c]) = c.moved?.or (lastMoved? cs) := by
  rw [lastMoved?, List.reverse_append]
  show (c :: cs.reverse).findSome? Change.moved? = _
  rw [List.findSome?_cons]
  cases c.moved? <;> rfl

namespace Records
variable {cs : List Change}

theorem size_eq (h : Records cs g) : g.size = (added cs).length + 1 := by
  rw [size, ← Array.length_toList, h.points]
  simp

theorem node_mem (h : Records cs g) {n : NodeId} : .node n ∈ g.points.toList ↔ n ∈ added cs := by
  simp [h.points]

theorem new : Records [] {} where
  nodup := List.nodup_nil
  points := rfl
  edges := rfl
  start := rfl

theorem add (h : Records cs g) (n : NodeId) : Records (cs ++ [.add n]) (g.add n).2 := by
  have edges : (g.add n).2.edges = (joined (cs ++ [.add n])).reverse := by
    rw [edges_add, h.edges, joined, joined, List.filterMap_append]
    simp [Change.edge?]
  have unmoved : lastMoved? (cs ++ [.add n]) = lastMoved? cs := lastMoved?_snoc cs _
  by_cases old : n ∈ added cs
  · have same : added (cs ++ [.add n]) = added cs := by rw [added_add, if_pos old]
    rw [add_of_present (h.node_mem.mpr old)] at edges ⊢
    exact ⟨same ▸ h.nodup, same ▸ h.points, edges, by rw [unmoved, same, h.start]⟩
  · have last : added (cs ++ [.add n]) = added cs ++ [n] := by rw [added_add, if_neg old]
    rw [add_of_absent (mt h.node_mem.mp old)] at edges ⊢
    refine ⟨?_, ?_, edges, ?_⟩
    · rw [last, List.nodup_append]
      refine ⟨h.nodup, by simp, ?_⟩
      rintro m hm _ hn rfl
      exact old (List.mem_singleton.mp hn ▸ hm)
    · simp [last, h.points]
    · -- The first node added has the number after the implicit return's.
      rw [unmoved, last, h.size_eq, h.start]
      cases lastMoved? cs with
      | some i => rfl
      | none => cases added cs <;> rfl

theorem join (h : Records cs g) {c : Change} {e : Edge} (he : c.edge? = some e) :
    Records (cs ++ [c]) { g with edges := e :: g.edges } := by
  have other : c.node? = none ∧ c.moved? = none := by
    cases c with
    | connect | leave => exact ⟨rfl, rfl⟩
    | add | setEntry => cases he
  have same : added (cs ++ [c]) = added cs := added_of_node?_eq_none cs other.1
  refine ⟨same ▸ h.nodup, same ▸ h.points, ?_, ?_⟩
  · simp [joined, he, h.edges]
  · rw [lastMoved?_snoc, other.2, same]
    exact h.start

theorem setEntry (h : Records cs g) (i : Nat) : Records (cs ++ [.setEntry i]) (g.setEntry i) := by
  have same : added (cs ++ [.setEntry i]) = added cs := added_of_node?_eq_none cs rfl
  refine ⟨same ▸ h.nodup, same ▸ h.points, ?_, ?_⟩
  · simp [joined, Change.edge?, FlowGraph.setEntry, h.edges]
  · rw [lastMoved?_snoc]
    rfl

/-- One more change. -/
theorem change (h : Records cs g) {c : Change} (step : g.change? c = some g') :
    Records (cs ++ [c]) g' := by
  cases c with
  | add n => exact Option.some.inj step ▸ h.add n
  | connect source branch target => exact change?_of_edge rfl step ▸ h.join rfl
  | leave source branch => exact change?_of_edge rfl step ▸ h.join rfl
  | setEntry i => exact Option.some.inj step ▸ h.setEntry i

/-- Many changes. -/
theorem changes (h : Records cs g) {more : List Change} (run : g.changes? more = some g') :
    Records (cs ++ more) g' := by
  induction more generalizing cs g with
  | nil =>
    obtain rfl := Option.some.inj run
    rwa [List.append_nil]
  | cons c more ih =>
    rw [changes?, List.foldlM_cons] at run
    obtain ⟨next, step, run⟩ := Option.bind_eq_some_iff.mp run
    have := ih (h.change step) run
    rwa [List.append_assoc] at this

end Records

theorem records_of_changes {cs : List Change} (h : changes? {} cs = some g) : Records cs g :=
  Records.new.changes h

/-! ### What the graph answers -/

namespace Records
variable {cs : List Change}

theorem nodup_points (h : Records cs g) : g.points.toList.Nodup := by
  rw [h.points, List.nodup_cons]
  exact ⟨by simp, h.nodup.map fun _ _ => Point.node.inj⟩

theorem point?_eq_implicitReturn (h : Records cs g) (i : Nat) :
    g.point? i = some .implicitReturn ↔ i = exit := by
  rw [point?, ← Array.getElem?_toList, h.points]
  cases i with
  | zero => simp [exit]
  | succ i => simp [exit]

/-- A node is found where it is. -/
theorem indexOf?_eq_some (h : Records cs g) {n : NodeId} {i : Nat} :
    g.indexOf? n = some i ↔ g.point? i = some (.node n) := by
  rw [indexOf?, point?, ← Array.getElem?_toList, List.findIdx?_eq_some_iff_getElem]
  constructor
  · rintro ⟨lt, here, _⟩
    rw [List.getElem?_eq_getElem lt, beq_iff_eq.mp here]
  · intro here
    obtain ⟨lt, at_i⟩ := List.getElem?_eq_some_iff.mp here
    refine ⟨lt, beq_iff_eq.mpr at_i, fun j before there => ?_⟩
    -- An earlier point with the same node would be the same point.
    have at_j := List.getElem?_eq_getElem (Nat.lt_trans before lt)
    rw [beq_iff_eq.mp there, ← here] at at_j
    exact Nat.ne_of_lt before ((List.getElem?_inj (Nat.lt_trans before lt) h.nodup_points).mp at_j)

theorem isSome_indexOf? (h : Records cs g) (n : NodeId) :
    (g.indexOf? n).isSome = true ↔ .add n ∈ cs := by
  rw [Option.isSome_iff_ne_none, ne_eq, indexOf?_eq_none, not_not, h.node_mem, added,
    List.mem_eraseDups, List.mem_filterMap]
  constructor
  · rintro ⟨c, hc, adds⟩
    cases c with
    | add m => exact Option.some.inj adds ▸ hc
    | _ => cases adds
  · intro hc
    exact ⟨_, hc, rfl⟩

/-- Edges are counted as they were made, from either end. -/
theorem count_eq (h : Records cs g) (u v : Nat) :
    (g.successors u).count v = cs.countP (Change.joins u v) ∧
      (g.predecessors v).count u = cs.countP (Change.joins u v) := by
  have made : g.edges.countP (fun e => e.source == u && e.target == v) =
      cs.countP (Change.joins u v) := by
    rw [h.edges, List.countP_reverse, joined, List.countP_filterMap]
    congr 1
    funext c
    rw [Change.joins]
    cases c.edge? <;> rfl
  constructor
  · rw [← made, successors, outEdges, List.count, List.countP_map, List.countP_filter]
    congr 1
    funext e
    exact Bool.and_comm _ _
  · rw [← made, predecessors, inEdges, List.count, List.countP_map, List.countP_filter]
    rfl

theorem outEdges_eq (h : Records cs g) (u : Nat) :
    g.outEdges u = ((joined cs).filter (·.source == u)).reverse := by
  rw [outEdges, h.edges, List.filter_reverse]

theorem throws_iff (h : Records cs g) (u : Nat) :
    g.throws u = true ↔ ∃ c ∈ cs, ∃ v, c.edge? = some ⟨u, .onException, v⟩ := by
  rw [throws, h.outEdges_eq, List.any_eq_true]
  constructor
  · rintro ⟨⟨source, branch, target⟩, he, exceptional⟩
    obtain ⟨listed, from_u⟩ := List.mem_filter.mp (List.mem_reverse.mp he)
    obtain ⟨c, hc, made⟩ := List.mem_filterMap.mp listed
    obtain rfl := beq_iff_eq.mp from_u
    obtain rfl := beq_iff_eq.mp exceptional
    exact ⟨c, hc, target, made⟩
  · rintro ⟨c, hc, v, made⟩
    have listed : ⟨u, .onException, v⟩ ∈ joined cs := List.mem_filterMap.mpr ⟨c, hc, made⟩
    exact ⟨_, List.mem_reverse.mpr (List.mem_filter.mpr ⟨listed, beq_self_eq_true u⟩), rfl⟩

/-- An entry that was not moved is at the first node, or at the implicit return if there is none. -/
theorem entry_eq (h : Records cs g) (unmoved : ∀ i, .setEntry i ∉ cs) :
    (∀ n, cs.findSome? Change.node? = some n → g.indexOf? n = some g.entry) ∧
      (cs.findSome? Change.node? = none → g.entry = exit) := by
  have still : lastMoved? cs = none := by
    rw [lastMoved?, List.findSome?_eq_none_iff]
    intro c hc
    cases c with
    | setEntry i => exact absurd (List.mem_reverse.mp hc) (unmoved i)
    | _ => rfl
  have start := h.start
  rw [still, Option.none_or] at start
  rw [← List.head?_filterMap, entry, start]
  constructor
  · intro n first
    obtain ⟨rest, nodes⟩ := List.head?_eq_some_iff.mp first
    have listed : added cs = n :: (rest.filter fun m => !m == n).eraseDups := by
      rw [added, nodes, List.eraseDups_cons]
    rw [h.indexOf?_eq_some, point?, ← Array.getElem?_toList, h.points, listed]
    rfl
  · intro none
    rw [added, List.head?_eq_none_iff.mp none]
    rfl

end Records

/-- **A graph is what it was told.** Whatever nodes were added, points joined and entries set, in
whatever order: the implicit return is point zero and no other; a node that was added has one
point, where it is found, and adding it again changes nothing; the points have as many edges to
each other as were made between them, seen from either end and listed from the newest on;
control leaves a point by an exception if an edge for that was made; and control enters at the
first node that was added, unless the entry was moved. -/
theorem changes_recorded (cs : List Change) (g : FlowGraph) (h : changes? {} cs = some g) :
    (∀ i, g.point? i = some .implicitReturn ↔ i = exit) ∧
    (∀ n i, g.indexOf? n = some i ↔ g.point? i = some (.node n)) ∧
    (∀ n, (g.indexOf? n).isSome = true ↔ .add n ∈ cs) ∧
    (∀ n i, g.indexOf? n = some i → g.add n = (i, g)) ∧
    (∀ u v, (g.successors u).count v = cs.countP (Change.joins u v) ∧
      (g.predecessors v).count u = cs.countP (Change.joins u v)) ∧
    (∀ u, (g.outEdges u).map (·.target) = g.successors u ∧
      g.outEdges u = ((joined cs).filter (·.source == u)).reverse) ∧
    (∀ u, g.throws u = true ↔ ∃ c ∈ cs, ∃ v, c.edge? = some ⟨u, .onException, v⟩) ∧
    ((∀ i, .setEntry i ∉ cs) →
      (∀ n, cs.findSome? Change.node? = some n → g.indexOf? n = some g.entry) ∧
      (cs.findSome? Change.node? = none → g.entry = exit)) := by
  have records := records_of_changes h
  refine ⟨records.point?_eq_implicitReturn, fun n i => records.indexOf?_eq_some,
    records.isSome_indexOf?, fun n i => add_of_indexOf?, records.count_eq, ?_,
    records.throws_iff, records.entry_eq⟩
  intro u
  exact ⟨rfl, records.outEdges_eq u⟩

/-- Two nodes with parallel edges, a loop, edges both ways and a node that is added twice. -/
def tangle : List Change :=
  [.add 4, .add 9, .connect 1 .onTrue 2, .add 4, .connect 2 .always 1, .connect 1 .onFalse 2,
    .connect 2 .onException 2, .leave 1 .onException, .leave 2 .always]

theorem changes_recorded_tangle :
    ∃ g, changes? {} tangle = some g ∧ g.indexOf? 9 = some 2 ∧ g.add 9 = (2, g) ∧
      (g.successors 1).count 2 = 2 ∧ (g.predecessors 2).count 1 = 2 ∧
      (g.outEdges 1).map (·.target) = [0, 2, 2] ∧ g.throws 2 = true ∧
      g.indexOf? 4 = some g.entry := by
  have run : changes? {} tangle = some
      { points := #[.implicitReturn, .node 4, .node 9]
        edges := [⟨2, .always, 0⟩, ⟨1, .onException, 0⟩, ⟨2, .onException, 2⟩, ⟨1, .onFalse, 2⟩,
          ⟨2, .always, 1⟩, ⟨1, .onTrue, 2⟩]
        start := some 1 } := rfl
  obtain ⟨_, index, _, again, count, out, throws, entry⟩ := changes_recorded tangle _ run
  have found := (index 9 2).mpr rfl
  refine ⟨_, run, found, again 9 2 found, (count 1 2).1, (count 1 2).2, ?_, ?_, ?_⟩
  · rw [(out 1).2]
    rfl
  · exact (throws 2).mpr ⟨.connect 2 .onException 2, by decide, 2, rfl⟩
  · exact (entry (by simp [tangle])).1 4 rfl

end Liveness.FlowGraph
