import Liveness.Proofs.Graph.PostOrder
import Liveness.Proofs.Solver.Limit

/-! Without cycles one sweep is enough.

In a graph without cycles that the entry reaches all of, no edge goes against the schedule: whoever
reads a point comes later in it (`ahead_schedule`). The places of the readers of a point are
therefore still on the list when the point is visited, and waking them changes nothing
(`wake_eq_self`). So the list only ever loses its first place, and the solver goes through the
schedule once, whatever the values are and whether or not they change.

By the same argument a point is settled for good once it was visited: what feeds it was visited
before it and is not visited again (`Swept.settled`). So the values of the solution solve the
equations here whatever the test for change says. -/
namespace Liveness

namespace FlowGraph
variable {g : FlowGraph}

/-- No walk along edges comes back to where it started. -/
def Acyclic (g : FlowGraph) : Prop :=
  ∀ i, ¬ Relation.TransGen (fun i j => j ∈ g.successors i) i i

/-- A graph has no cycles if its edges go down in some ranking. -/
theorem acyclic_of_lt (rank : Nat → Nat) (down : ∀ e ∈ g.edges, rank e.target < rank e.source) :
    g.Acyclic := by
  have falls {i j : Nat} (h : Relation.TransGen (fun i j => j ∈ g.successors i) i j) :
      rank j < rank i := by
    induction h with
    | single next =>
      obtain ⟨e, he, rfl, rfl⟩ := mem_successors.mp next
      exact down e he
    | tail _ next ih =>
      obtain ⟨e, he, rfl, rfl⟩ := mem_successors.mp next
      exact Nat.lt_trans (down e he) ih
  intro i cycle
  exact Nat.lt_irrefl _ (falls cycle)

/-- Whoever reads a point of the list comes later in it. -/
def Ahead (g : FlowGraph) (d : Direction) (order : List Nat) : Prop :=
  ∀ i later, i :: later <:+ order → ∀ j ∈ g.readers d i, j ∈ later

namespace Ahead
variable {d : Direction} {order : List Nat} {j k : Nat}

/-- Whoever reads the point at a place comes after that place. -/
theorem mem_drop (h : g.Ahead d order) (hk : k < order.length) (hj : j ∈ g.readers d order[k]) :
    j ∈ order.drop (k + 1) := by
  apply h order[k] _ _ j hj
  rw [← List.drop_eq_getElem_cons hk]
  exact List.drop_suffix k _

/-- No point up to a place is fed by the point at that place. -/
theorem not_mem_feeders (h : g.Ahead d order) (once : order.Nodup) (hk : k < order.length)
    (hj : j ∈ order.take (k + 1)) : order[k] ∉ g.feeders d j := by
  intro feeds
  have later := h.mem_drop hk (mem_readers_iff.mpr feeds)
  exact List.disjoint_take_drop once (Nat.le_refl _) hj later

end Ahead

/-- Without cycles edges go on in the order in which points are left behind, taken from its end. -/
theorem ahead_finished (closed : g.Closed) (entry : g.entry < g.size) (acyclic : g.Acyclic) :
    g.Ahead .forward g.search.finished := by
  intro u earlier hu v hv
  apply ((sound_search closed entry).1.ordered u earlier hu v hv).resolve_right
  intro back
  exact acyclic u (.head' hv back)

/-- What holds forwards in a list holds backwards in its reverse. -/
theorem Ahead.reverse {order : List Nat} (h : g.Ahead .forward order) (once : order.Nodup)
    (all : ∀ i, ∀ j ∈ g.readers .backward i, j ∈ order) : g.Ahead .backward order.reverse := by
  intro i later hi j hj
  obtain ⟨before, split⟩ := hi
  have order_eq : order = later.reverse ++ i :: before.reverse := by
    rw [← List.reverse_reverse order, ← split]
    simp
  have next : i ∈ g.readers .forward j := mem_readers_iff.mp hj
  have passed : i ∉ before.reverse := by
    rw [order_eq] at once
    exact (List.nodup_cons.mp (List.nodup_append.mp once).2.1).1
  have place := all i j hj
  rw [order_eq, List.mem_append, List.mem_reverse] at place
  refine place.resolve_right fun here => ?_
  -- Otherwise the edge from `j` leads to an `i` that was passed before `i`.
  obtain ⟨between, rest, cut⟩ := List.append_of_mem here
  have found := h j rest ⟨later.reverse ++ between, by rw [order_eq, cut, List.append_assoc]⟩ i next
  cases between with
  | nil =>
    obtain ⟨_, rfl⟩ := List.cons.inj cut
    exact passed found
  | cons b between =>
    obtain ⟨_, same⟩ := List.cons.inj cut
    rw [same] at passed
    exact passed (List.mem_append_right between (List.mem_cons_of_mem j found))

/-- Without cycles, and if the entry reaches every point, whoever reads a point is scheduled after
it. -/
theorem ahead_schedule (closed : g.Closed) {o : PostOrder} (h : g.postOrder? = some o)
    (all : ∀ i < g.size, g.Reaches g.entry i) (acyclic : g.Acyclic) (d : Direction) :
    g.Ahead d (o.schedule d) := by
  have entry := entry_lt_of_postOrder? h
  have left : ∀ i < g.size, i ∈ g.search.finished :=
    fun i hi => (mem_finished_search closed entry).mpr (all i hi)
  have none : o.order.drop o.reachable = [] := by
    rw [drop_order h, List.filter_eq_nil_iff]
    intro i hi
    simpa using (mem_visited_search closed entry).mpr (left i (List.mem_range.mp hi))
  have forwards := ahead_finished closed entry acyclic
  have first := take_order h
  cases d with
  | forward =>
    rw [PostOrder.schedule, none, first, List.reverse_reverse, List.append_nil]
    exact forwards
  | backward =>
    have order : o.schedule .backward = g.search.finished.reverse := by
      rw [PostOrder.schedule, ← List.take_append_drop o.reachable o.order, none, first,
        List.append_nil]
    rw [order]
    exact forwards.reverse (nodup_finished_search closed entry)
      fun i j hj => left j (closed.predecessor_lt hj)

end FlowGraph

namespace Solver
variable {L : Type u} {p : Problem L} {g : FlowGraph} {schedule : Schedule} {o : PostOrder}

/-! ### Waking what is awake -/

/-- A place that is on the list already is not added to it. -/
theorem enqueue_of_mem {r : Nat} {pending : List Nat} (ascending : pending.Pairwise (· < ·))
    (h : r ∈ pending) : enqueue r pending = pending := by
  induction pending with
  | nil => cases h
  | cons q rest ih =>
    obtain ⟨above, ascending⟩ := List.pairwise_cons.mp ascending
    rw [enqueue]
    rcases List.mem_cons.mp h with rfl | later
    · rw [if_neg (Nat.lt_irrefl r), if_pos rfl]
    · have lt := above r later
      rw [if_neg (by omega), if_neg (by omega), ih ascending later]

/-- If all readers of a point are pending, waking them changes nothing. -/
theorem wake_eq_self {i : Nat} {pending : List Nat} (ascending : pending.Pairwise (· < ·))
    (awake : ∀ j ∈ g.readers p.direction i, schedule.rank[j]?.getD 0 ∈ pending) :
    wake p g schedule i pending = pending := by
  unfold wake
  generalize g.readers p.direction i = readers at awake
  induction readers with
  | nil => rfl
  | cons j rest ih =>
    obtain ⟨first, others⟩ := List.forall_mem_cons.mp awake
    rw [List.foldl_cons, enqueue_of_mem ascending first]
    exact ih others

/-! ### The sweep -/

/-- Points from some place on have ranks from there on. -/
theorem Schedule.rank_mem_drop {d : Direction} (perm : (o.schedule d).Perm (List.range g.size))
    {j k : Nat} (h : j ∈ (o.schedule d).drop k) :
    (Schedule.of o d).rank[j]?.getD 0 ∈ (List.range g.size).drop k := by
  obtain ⟨m, hm⟩ := List.mem_iff_getElem?.mp h
  rw [List.getElem?_drop] at hm
  obtain ⟨inside, rfl⟩ := List.getElem?_eq_some_iff.mp hm
  have length : (o.schedule d).length = g.size := by simpa using perm.length_eq
  have point : (o.schedule d)[k + m] < (o.schedule d).length := by
    rw [length, ← List.mem_range, ← perm.mem_iff]
    exact List.getElem_mem inside
  have rank : (Schedule.of o d).rank[(o.schedule d)[k + m]]?.getD 0 = k + m := by
    simp [Schedule.of, point, (perm.nodup_iff.mpr List.nodup_range).idxOf_getElem (k + m) inside]
  rw [rank]
  apply List.mem_of_getElem? (i := m)
  rw [List.getElem?_drop, List.getElem?_range (length ▸ inside)]

/-- If readers come later in the schedule, those of the point at a place are among the places that
follow. -/
theorem wake_scheduled (perm : (o.schedule p.direction).Perm (List.range g.size))
    (ahead : g.Ahead p.direction (o.schedule p.direction)) {k : Nat}
    (hk : k < (o.schedule p.direction).length) :
    wake p g (.of o p.direction) (o.schedule p.direction)[k] ((List.range g.size).drop (k + 1)) =
      (List.range g.size).drop (k + 1) := by
  apply wake_eq_self List.pairwise_lt_range.drop
  intro j hj
  exact Schedule.rank_mem_drop perm (ahead.mem_drop hk hj)

/-- After `k` visits the first `k` points of the schedule have been visited and are settled, and the
places of the others are pending. -/
structure Swept (p : Problem L) (g : FlowGraph) (o : PostOrder) (k : Nat) (s : Progress L) :
    Prop where
  pending : s.pending = (List.range g.size).drop k
  visited : s.visits.reverse.map Visit.point = (o.schedule p.direction).take k
  settled : ∀ i ∈ (o.schedule p.direction).take k, Settled p g s.cells i

theorem swept_start (p : Problem L) (g : FlowGraph) (o : PostOrder) : Swept p g o 0 (start p g) :=
  ⟨rfl, rfl, by simp⟩

/-- At the end of a sweep every point is settled. -/
theorem Swept.settled_of_lt {s : Progress L} (h : Swept p g o g.size s)
    (perm : (o.schedule p.direction).Perm (List.range g.size)) {i : Nat} (hi : i < g.size) :
    Settled p g s.cells i := by
  have length : (o.schedule p.direction).length = g.size := by simpa using perm.length_eq
  apply h.settled i
  rw [List.take_of_length_le (Nat.le_of_eq length)]
  exact perm.mem_iff.mpr (List.mem_range.mpr hi)

section Sweep
variable [BEq L] {s : Progress L} {k : Nat}

/-- Where no flow fails no step does. -/
theorem step_ne_failed (numbers : schedule.Numbers g.size) (nonempty : 0 < g.size)
    (total : ∀ i < g.size, ∀ x, ∃ y, p.flow i x = .ok y) (v : Visit L) (e : AnalysisError) :
    step p g schedule s ≠ .failed v e := by
  intro failed
  obtain ⟨⟨r, here⟩, fails⟩ := flow_of_failed failed
  have inside := here ▸ numbers.point_lt nonempty r
  obtain ⟨y, flow⟩ := total v.point inside (gather p g s.cells v.point)
  rw [fails] at flow
  cases flow

/-- A visit to the next point of the schedule settles it, and unsettles none that was visited
before. -/
theorem Swept.settled_visit {s' : Progress L} {r : Nat} {rest : List Nat} {leaving : L}
    (h : Swept p g o k s) (once : (o.schedule p.direction).Nodup)
    (ahead : g.Ahead p.direction (o.schedule p.direction))
    (hk : k < (o.schedule p.direction).length)
    (visit : Visits p g schedule s s' r rest (o.schedule p.direction)[k] leaving)
    (hi : (o.schedule p.direction)[k] < s.cells.size) :
    ∀ j ∈ (o.schedule p.direction).take (k + 1), Settled p g s'.cells j := by
  intro j hj
  -- What feeds the points visited so far is not what is visited now.
  have unchanged : ∀ m ∈ g.feeders p.direction j,
      (cell p s'.cells m).leaving = (cell p s.cells m).leaving := by
    intro m hm
    rw [(visit.cell hi).2 m fun same => ahead.not_mem_feeders once hk hj (same ▸ hm)]
  by_cases here : (o.schedule p.direction)[k] = j
  · subst here
    exact visit.settled hi unchanged
  · have earlier : j ∈ (o.schedule p.direction).take k := by
      rw [← List.take_append_getElem hk, List.mem_append, List.mem_singleton] at hj
      exact hj.resolve_right (Ne.symm here)
    exact (h.settled j earlier).visit visit hi here unchanged

/-- One more visit is to the next point of the schedule. -/
theorem Swept.step (h : Swept p g o k s) (closed : g.Closed) (order : g.postOrder? = some o)
    (ahead : g.Ahead p.direction (o.schedule p.direction))
    (total : ∀ i < g.size, ∀ x, ∃ y, p.flow i x = .ok y) (cells : s.cells.size = g.size)
    (hk : k < g.size) :
    ∃ s', step p g (.of o p.direction) s = .moved s' ∧ Swept p g o (k + 1) s' := by
  have perm := FlowGraph.perm_schedule closed order p.direction
  have numbers := Schedule.numbers_of closed order p.direction
  have place : k < (o.schedule p.direction).length := by
    rwa [perm.length_eq, List.length_range]
  have pending : s.pending = k :: (List.range g.size).drop (k + 1) := by
    rw [h.pending, List.drop_eq_getElem_cons (by rwa [List.length_range]), List.getElem_range]
  have point : (Schedule.of o p.direction).order[k]?.getD 0 = (o.schedule p.direction)[k] := by
    simp [Schedule.of, place]
  cases next : Solver.step p g (.of o p.direction) s with
  | finished =>
    rw [pending_of_finished next] at pending
    cases pending
  | failed v e =>
    exact absurd next (step_ne_failed numbers (Nat.zero_lt_of_lt hk) total v e)
  | moved s' =>
    obtain ⟨r, rest, i, leaving, visit⟩ := visits_of_step next
    obtain ⟨rfl, rfl⟩ := List.cons.inj (pending.symm.trans visit.pending)
    obtain rfl := point.symm.trans visit.point
    refine ⟨s', rfl, ?_, ?_, ?_⟩
    · rw [visit.queue, wake_scheduled perm ahead place, ite_self]
    · obtain ⟨v, visited, visits⟩ := exists_visit_at pending next
      rw [visits, List.reverse_cons, List.map_append, h.visited, List.map_singleton, visited, point,
        List.take_append_getElem place]
    · have inside := visit.lt_size numbers (Nat.zero_lt_of_lt hk)
      exact h.settled_visit (perm.nodup_iff.mpr List.nodup_range) ahead place visit (cells ▸ inside)

/-- The first visits of a run go through the schedule. -/
theorem exists_swept (closed : g.Closed) (order : g.postOrder? = some o)
    (ahead : g.Ahead p.direction (o.schedule p.direction))
    (total : ∀ i < g.size, ∀ x, ∃ y, p.flow i x = .ok y) (hk : k ≤ g.size) :
    ∃ s, Reached p g (.of o p.direction) s ∧ Swept p g o k s := by
  induction k with
  | zero => exact ⟨start p g, .start, swept_start p g o⟩
  | succ k ih =>
    obtain ⟨s, reached, swept⟩ := ih (Nat.le_of_succ_le hk)
    obtain ⟨s', moved, swept'⟩ := swept.step closed order ahead total reached.size_cells hk
    exact ⟨s', reached.step moved, swept'⟩

/-- **A graph without cycles is solved in one sweep.** If the entry reaches all of it and no flow
fails, a run with room for as many visits as there are points has a solution, and visits every
point once, in the order of the schedule. What leaves a point is what flowed through it in that
visit, from what its neighbours had by then, and neither has changed since. -/
theorem solve_sweeps (p : Problem L) (g : FlowGraph) (closed : g.Closed)
    (entry : g.entry < g.size) (all : ∀ i < g.size, g.Reaches g.entry i) (acyclic : g.Acyclic)
    (total : ∀ i < g.size, ∀ x, ∃ y, p.flow i x = .ok y) (limit : Nat) (room : g.size ≤ limit) :
    ∃ o solution, g.postOrder? = some o ∧ (solve p g limit).result = .ok solution ∧
      solution.steps = g.size ∧
      (solve p g limit).visits.map Visit.point = o.schedule p.direction ∧
      (o.schedule p.direction).Perm (List.range g.size) ∧
      ∀ i < g.size, ∃ arriving leaving, solution.cells[i]? = some ⟨arriving, leaving⟩ ∧
        p.flow i arriving = .ok leaving ∧
        (i = g.origin p.direction → arriving = p.boundary) ∧
        (i ≠ g.origin p.direction → Merged p (fun j => solution.cells[j]?.map Cell.leaving)
          (g.feeders p.direction i) arriving) := by
  obtain ⟨o, order⟩ := FlowGraph.exists_postOrder? entry
  have perm := FlowGraph.perm_schedule closed order p.direction
  have ahead := FlowGraph.ahead_schedule closed order all acyclic p.direction
  obtain ⟨s, reached, swept⟩ := exists_swept closed order ahead total (Nat.le_refl g.size)
  have length : (o.schedule p.direction).length = g.size := by simpa using perm.length_eq
  have empty : s.pending = [] := by
    rw [swept.pending, List.drop_of_length_le (Nat.le_of_eq List.length_range)]
  have visited : s.visits.reverse.map Visit.point = o.schedule p.direction := by
    rw [swept.visited, List.take_of_length_le (Nat.le_of_eq length)]
  have visits : s.visits.length = g.size := by
    have same := congrArg List.length visited
    rwa [List.length_map, List.length_reverse, length] at same
  have run : solve p g limit = s.finish p := by
    rw [solve_eq_iterate order, (Unlimited.finished reached empty).iterate_eq, if_pos]
    rwa [Progress.finish, List.length_reverse, visits]
  have grounded := reached.grounded (Schedule.numbers_of closed order p.direction)
    (origin_lt entry p.direction)
  rw [run]
  refine ⟨o, _, order, rfl, visits, visited, perm, fun i hi => ?_⟩
  exact (swept.settled_of_lt perm hi).exists_cell grounded closed reached.size_cells hi

end Sweep

/-- Two branches that join at the end, one of them by two edges at once, and a way past both. -/
def braid : FlowGraph where
  points := #[.implicitReturn, .node 0, .node 1, .node 2, .node 3]
  edges := [⟨1, .onException, 0⟩, ⟨4, .onFalse, 0⟩, ⟨4, .onTrue, 0⟩, ⟨3, .always, 4⟩, ⟨2, .always, 4⟩,
    ⟨1, .onFalse, 3⟩, ⟨1, .onTrue, 2⟩]
  start := some 1

/-- Values that fall where what arrives rises, and are added up where edges meet. -/
def seesaw (direction : Direction) : Problem Nat where
  direction
  boundary := 1
  initial := 0
  join xs := xs.foldl (· + ·) 0
  flow i x := .ok (7 * i - x)

theorem solve_sweeps_braid :
    (∃ o solution, braid.postOrder? = some o ∧
      (solve (seesaw .forward) braid 5).result = .ok solution ∧ solution.steps = 5 ∧
      (solve (seesaw .forward) braid 5).visits.map Visit.point = o.schedule .forward ∧
      (o.schedule .forward).Perm [0, 1, 2, 3, 4] ∧
      ∃ arriving leaving, solution.cells[4]? = some ⟨arriving, leaving⟩ ∧ 28 - arriving = leaving ∧
        Merged (seesaw .forward) (fun j => solution.cells[j]?.map Cell.leaving) [3, 2] arriving) ∧
    ∃ o solution, braid.postOrder? = some o ∧
      (solve (seesaw .backward) braid 9).result = .ok solution ∧ solution.steps = 5 ∧
      (solve (seesaw .backward) braid 9).visits.map Visit.point = o.schedule .backward ∧
      (o.schedule .backward).Perm [0, 1, 2, 3, 4] ∧
      ∃ leaving, solution.cells[0]? = some ⟨1, leaving⟩ := by
  have closed : braid.Closed := by decide
  have acyclic : braid.Acyclic :=
    FlowGraph.acyclic_of_lt (fun i => [0, 3, 2, 2, 1][i]?.getD 0) (by decide)
  have all : ∀ i < braid.size, braid.Reaches braid.entry i := fun i hi => by
    rw [← FlowGraph.mem_finished_search closed (by decide)]
    revert i
    decide
  constructor
  · obtain ⟨o, s, order, solved, steps, visits, perm, cells⟩ := solve_sweeps (seesaw .forward) braid
      closed (by decide) all acyclic (fun _ _ _ => ⟨_, rfl⟩) 5 (by decide)
    obtain ⟨x, y, here, flow, _, merged⟩ := cells 4 (by decide)
    exact ⟨o, s, order, solved, steps, visits, perm, x, y, here, Except.ok.inj flow,
      merged (by decide)⟩
  · obtain ⟨o, s, order, solved, steps, visits, perm, cells⟩ := solve_sweeps (seesaw .backward) braid
      closed (by decide) all acyclic (fun _ _ _ => ⟨_, rfl⟩) 9 (by decide)
    obtain ⟨x, y, here, _, boundary, _⟩ := cells 0 (by decide)
    obtain rfl := boundary rfl
    exact ⟨o, s, order, solved, steps, visits, perm, y, here⟩

end Solver
end Liveness
