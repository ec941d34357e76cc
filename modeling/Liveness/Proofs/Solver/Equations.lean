import Liveness.Proofs.Solver.Run
import Liveness.Solver.Counter

/-! A solution solves the equations.

At every moment a point is either settled, its two values being what its neighbours and the
flow through it make of the cells as they are, or waiting for a visit (`Consistent`). A
visit settles its point, unless the point feeds itself and what leaves it has changed; then
it waits again. And it unsettles no other point without putting it on the list, since the
values of a point are read only by the points it feeds. When the list is empty all points
are settled. What arrives where nothing is sent stays what it was (`Grounded`).

Nothing is asked of the problem but that the test for change tells different values apart:
joining need not be a least upper bound, nor flow monotone. -/
namespace Liveness.Solver
variable {L : Type u} {p : Problem L} {g : FlowGraph} {schedule : Schedule}

/-- The values of a point are what a visit would make them. -/
structure Settled (p : Problem L) (g : FlowGraph) (cells : Array (Cell L)) (i : Nat) : Prop where
  gathers : gather p g cells i = (cell p cells i).arriving
  flows : p.flow i (cell p cells i).arriving = .ok (cell p cells i).leaving

/-- What arrives where nothing is sent is what was there at the start. -/
structure Grounded (p : Problem L) (g : FlowGraph) (cells : Array (Cell L)) : Prop where
  origin : (cell p cells (g.origin p.direction)).arriving = p.boundary
  unfed : ∀ i, i ≠ g.origin p.direction → g.feeders p.direction i = [] →
    (cell p cells i).arriving = p.initial

theorem grounded_start (inside : g.origin p.direction < g.size) :
    Grounded p g (start p g).cells where
  origin := by rw [cell_start, if_pos ⟨rfl, inside⟩]
  unfed i hi _ := by rw [cell_start, if_neg fun h => hi h.1]

/-- Every point is settled or waits for a visit. -/
def Consistent (p : Problem L) (g : FlowGraph) (schedule : Schedule) (s : Progress L) : Prop :=
  ∀ i < g.size, schedule.rank[i]?.getD 0 ∈ s.pending ∨ Settled p g s.cells i

theorem consistent_start (numbers : schedule.Numbers g.size) :
    Consistent p g schedule (start p g) :=
  fun i hi => .inl (List.mem_range.mpr (numbers.rank_lt i hi))

section Visit
variable [BEq L] {s s' : Progress L} {r : Nat} {rest : List Nat} {i : Nat} {leaving : L}

/-- A visit is made to a point of the graph. -/
theorem Visits.lt_size (visit : Visits p g schedule s s' r rest i leaving)
    (numbers : schedule.Numbers g.size) (nonempty : 0 < g.size) : i < g.size := by
  rw [← visit.point]
  exact numbers.point_lt nonempty r

/-- A visit takes no other point off the list. -/
theorem Visits.still_pending (visit : Visits p g schedule s s' r rest i leaving)
    (numbers : schedule.Numbers g.size) {j : Nat} (hj : j < g.size) (other : i ≠ j)
    (h : schedule.rank[j]?.getD 0 ∈ s.pending) : schedule.rank[j]?.getD 0 ∈ s'.pending := by
  have kept : schedule.rank[j]?.getD 0 ∈ rest := by
    rw [visit.pending] at h
    rcases List.mem_cons.mp h with first | later
    · have place := visit.point
      rw [← first, numbers.order_rank j hj] at place
      exact absurd place.symm other
    · exact later
  rw [visit.queue]
  split
  · exact kept
  · exact mem_wake.mpr (.inl kept)

/-- After a visit the points that the visited one feeds are on the list, unless what leaves it
is as before. -/
theorem Visits.woken [LawfulBEq L] (visit : Visits p g schedule s s' r rest i leaving) :
    leaving = (cell p s.cells i).leaving ∨
      ∀ j, i ∈ g.feeders p.direction j → schedule.rank[j]?.getD 0 ∈ s'.pending := by
  by_cases same : leaving = (cell p s.cells i).leaving
  · exact .inl same
  · refine .inr fun j hj => ?_
    rw [visit.queue, if_neg (by simpa using same)]
    exact mem_wake.mpr (.inr ⟨j, FlowGraph.mem_readers_iff.mpr hj, rfl⟩)

/-- The visited point has what it gathered and what flowed through; the others are untouched. -/
theorem Visits.cell (visit : Visits p g schedule s s' r rest i leaving) (hi : i < s.cells.size) :
    cell p s'.cells i = ⟨gather p g s.cells i, leaving⟩ ∧
      ∀ j, i ≠ j → Solver.cell p s'.cells j = Solver.cell p s.cells j := by
  rw [visit.cells]
  exact ⟨cell_set hi _, fun j hj => cell_set_ne hj _⟩

/-- A point that no changed value feeds finds the values that it found before. -/
theorem Visits.feeders_unchanged [LawfulBEq L]
    (visit : Visits p g schedule s s' r rest i leaving) (hi : i < s.cells.size) (j : Nat) :
    schedule.rank[j]?.getD 0 ∈ s'.pending ∨ ∀ k ∈ g.feeders p.direction j,
      (Solver.cell p s'.cells k).leaving = (Solver.cell p s.cells k).leaving := by
  obtain ⟨here, elsewhere⟩ := visit.cell hi
  rcases visit.woken with same | woken
  · refine .inr fun k _ => ?_
    by_cases hk : i = k
    · rw [← hk, here, same]
    · rw [elsewhere k hk]
  · by_cases fed : i ∈ g.feeders p.direction j
    · exact .inl (woken j fed)
    · refine .inr fun k hk => ?_
      rw [elsewhere k fun h => fed (h ▸ hk)]

/-- A visit settles its point, unless the point feeds itself and what leaves it has changed. -/
theorem Visits.settled (visit : Visits p g schedule s s' r rest i leaving) (hi : i < s.cells.size)
    (unchanged : ∀ k ∈ g.feeders p.direction i,
      (Solver.cell p s'.cells k).leaving = (Solver.cell p s.cells k).leaving) :
    Settled p g s'.cells i := by
  obtain ⟨here, _⟩ := visit.cell hi
  refine ⟨gather_again unchanged (by rw [here]), ?_⟩
  rw [here]
  exact visit.flow

/-- A visit unsettles no point that is fed as before. -/
theorem Settled.visit {j : Nat} (h : Settled p g s.cells j)
    (visit : Visits p g schedule s s' r rest i leaving) (hi : i < s.cells.size) (other : i ≠ j)
    (unchanged : ∀ k ∈ g.feeders p.direction j,
      (Solver.cell p s'.cells k).leaving = (Solver.cell p s.cells k).leaving) :
    Settled p g s'.cells j := by
  have same := (visit.cell hi).2 j other
  refine ⟨gather_again unchanged (by rw [same, h.gathers]), ?_⟩
  rw [same]
  exact h.flows

/-- A visit brings nothing to a point that nothing is sent to. -/
theorem Grounded.visit (h : Grounded p g s.cells)
    (visit : Visits p g schedule s s' r rest i leaving) (hi : i < s.cells.size) :
    Grounded p g s'.cells := by
  obtain ⟨here, elsewhere⟩ := visit.cell hi
  constructor
  · by_cases origin : i = g.origin p.direction
    · rw [← origin, here]
      show gather p g s.cells i = p.boundary
      rw [gather_eq, if_pos origin, origin]
      exact h.origin
    · rw [elsewhere _ origin]
      exact h.origin
  · intro j hj none
    by_cases hij : i = j
    · subst hij
      rw [here]
      show gather p g s.cells i = p.initial
      rw [gather_eq, if_neg hj, none]
      exact h.unfed i hj none
    · rw [elsewhere j hij]
      exact h.unfed j hj none

/-- A visit leaves the state consistent. -/
theorem Consistent.visit [LawfulBEq L] (h : Consistent p g schedule s)
    (visit : Visits p g schedule s s' r rest i leaving) (numbers : schedule.Numbers g.size)
    (hi : i < s.cells.size) : Consistent p g schedule s' := by
  intro j hj
  rcases visit.feeders_unchanged hi j with pending | unchanged
  · exact .inl pending
  · by_cases hij : i = j
    · subst hij
      exact .inr (visit.settled hi unchanged)
    · rcases h j hj with pending | settled
      · exact .inl (visit.still_pending numbers hj hij pending)
      · exact .inr (settled.visit visit hi hij unchanged)

end Visit

theorem Reached.grounded [BEq L] {s : Progress L} (h : Reached p g schedule s)
    (numbers : schedule.Numbers g.size) (inside : g.origin p.direction < g.size) :
    Grounded p g s.cells := by
  induction h with
  | start => exact grounded_start inside
  | step before moved ih =>
    obtain ⟨_, _, _, _, visit⟩ := visits_of_step moved
    have hi := visit.lt_size numbers (Nat.zero_lt_of_lt inside)
    exact ih.visit visit (before.size_cells ▸ hi)

/-- Every state that the solver passes through is consistent. -/
theorem Reached.consistent [BEq L] [LawfulBEq L] {s : Progress L} (h : Reached p g schedule s)
    (numbers : schedule.Numbers g.size) (nonempty : 0 < g.size) : Consistent p g schedule s := by
  induction h with
  | start => exact consistent_start numbers
  | step before moved ih =>
    obtain ⟨_, _, _, _, visit⟩ := visits_of_step moved
    exact ih.visit visit numbers (before.size_cells ▸ visit.lt_size numbers nonempty)

theorem origin_lt (entry : g.entry < g.size) (d : Direction) : g.origin d < g.size := by
  cases d with
  | forward => exact entry
  | backward => exact Nat.zero_lt_of_lt entry

/-- In a solution every point is settled. -/
theorem settled_of_solve [BEq L] [LawfulBEq L] (closed : g.Closed) {limit : Nat}
    {solution : Solution L} (h : (solve p g limit).result = .ok solution) :
    Grounded p g solution.cells ∧ ∀ i < g.size, Settled p g solution.cells i := by
  obtain ⟨o, last, order, reached, empty, rfl⟩ := reached_of_solve h
  have inside := origin_lt (FlowGraph.entry_lt_of_postOrder? order) p.direction
  have numbers := Schedule.numbers_of closed order p.direction
  refine ⟨reached.grounded numbers inside, fun i hi => ?_⟩
  rcases reached.consistent numbers (Nat.zero_lt_of_lt inside) i hi with pending | settled
  · rw [empty] at pending
    cases pending
  · exact settled

/-! ### The equations of both directions -/

/-- The value that a point's neighbours give it, from one value for each: that of a single
neighbour as it is, the join of several, and the initial one where there is none. -/
def Merged (p : Problem L) (side : Nat → Option L) : List Nat → L → Prop
  | [], x => x = p.initial
  | [j], x => side j = some x
  | js, x => ∃ xs, js.map side = xs.map some ∧ x = p.join xs

/-- What arrives at a settled point is merged from the values of the points that feed it. -/
theorem Settled.merged {cells : Array (Cell L)} {i : Nat} (h : Settled p g cells i)
    (grounded : Grounded p g cells) (ordinary : i ≠ g.origin p.direction) (side : Nat → Option L)
    (sent : ∀ j ∈ g.feeders p.direction i, side j = some (cell p cells j).leaving) :
    Merged p side (g.feeders p.direction i) (cell p cells i).arriving := by
  have gathers := h.gathers
  rw [gather_eq, if_neg ordinary] at gathers
  match feeders : g.feeders p.direction i with
  | [] => exact grounded.unfed i ordinary feeders
  | [j] =>
    rw [feeders] at gathers sent
    rw [← gathers]
    exact sent j (by simp)
  | j :: k :: js =>
    rw [feeders] at gathers sent
    refine ⟨(j :: k :: js).map fun m => (cell p cells m).leaving, ?_, gathers.symm⟩
    rw [List.map_map]
    exact List.map_congr_left sent

/-- What a settled point has: the value that leaves it is what flows through it, and the value
that arrives is the boundary value at the origin, and else merged from what leaves those that feed
the point. -/
theorem Settled.exists_cell {cells : Array (Cell L)} {i : Nat} (h : Settled p g cells i)
    (grounded : Grounded p g cells) (closed : g.Closed) (size : cells.size = g.size)
    (hi : i < g.size) :
    ∃ arriving leaving, cells[i]? = some ⟨arriving, leaving⟩ ∧ p.flow i arriving = .ok leaving ∧
      (i = g.origin p.direction → arriving = p.boundary) ∧
      (i ≠ g.origin p.direction →
        Merged p (fun j => cells[j]?.map Cell.leaving) (g.feeders p.direction i) arriving) := by
  refine ⟨_, _, getElem?_eq_cell (size ▸ hi), h.flows, fun origin => origin ▸ grounded.origin,
    fun ordinary => h.merged grounded ordinary _ fun j hj => ?_⟩
  rw [getElem?_eq_cell (size ▸ closed.feeder_lt hj)]
  rfl

/-- **A solution solves the equations,** whatever the problem. Backwards, what holds before a
point is what flows through it from what holds after it, and that is merged from what holds
before its successors, or the boundary value after the implicit return. Forwards it is the
other way round, with predecessors and the entry. -/
theorem solve_equations [BEq L] [LawfulBEq L] (p : Problem L) (g : FlowGraph) (closed : g.Closed)
    (limit : Nat) (s : Solution L) (h : (solve p g limit).result = .ok s) (i : Nat)
    (hi : i < g.size) :
    ∃ before after, s.before? i = some before ∧ s.after? i = some after ∧
      (p.direction = .backward → p.flow i after = .ok before ∧
        (i = FlowGraph.exit → after = p.boundary) ∧
        (i ≠ FlowGraph.exit → Merged p s.before? (g.successors i) after)) ∧
      (p.direction = .forward → p.flow i before = .ok after ∧
        (i = g.entry → before = p.boundary) ∧
        (i ≠ g.entry → Merged p s.after? (g.predecessors i) before)) := by
  obtain ⟨grounded, settled⟩ := settled_of_solve closed h
  have origin := grounded.origin
  have here := settled i hi
  refine ⟨_, _, before?_of_solve h hi, after?_of_solve h hi, ?_, ?_⟩
  · intro backward
    have sent : ∀ j ∈ g.feeders p.direction i, s.before? j = some (cell p s.cells j).leaving := by
      intro j hj
      rw [before?_of_solve h (closed.feeder_lt hj), backward]
      rfl
    have merged := fun ordinary => here.merged grounded ordinary s.before? sent
    rw [backward] at origin merged ⊢
    exact ⟨here.flows, fun exit => exit ▸ origin, merged⟩
  · intro forward
    have sent : ∀ j ∈ g.feeders p.direction i, s.after? j = some (cell p s.cells j).leaving := by
      intro j hj
      rw [after?_of_solve h (closed.feeder_lt hj), forward]
      rfl
    have merged := fun ordinary => here.merged grounded ordinary s.after? sent
    rw [forward] at origin merged ⊢
    exact ⟨here.flows, fun entry => entry ▸ origin, merged⟩

/-- A graph with a loop, a point that leads to itself, an edge that is there twice, and a
point that the entry does not reach. -/
def knot : FlowGraph where
  points := #[.implicitReturn, .node 0, .node 1, .node 2, .node 3]
  edges := [⟨4, .always, 3⟩, ⟨3, .onFalse, 0⟩, ⟨3, .onTrue, 2⟩, ⟨2, .synthetic, 2⟩, ⟨2, .always, 3⟩,
    ⟨1, .onFalse, 2⟩, ⟨1, .onTrue, 2⟩]
  start := some 1

theorem solve_equations_knot :
    ∃ s, (solve (counter .backward 0 0 1 3) knot 50).result = .ok s ∧
      ∃ before after, s.before? 2 = some before ∧ s.after? 2 = some after ∧
        (counter .backward 0 0 1 3).flow 2 after = .ok before ∧
        Merged (counter .backward 0 0 1 3) s.before? [2, 3] after := by
  have solved : (solve (counter .backward 0 0 1 3) knot 50).result =
      .ok ⟨.backward, #[⟨0, 1⟩, ⟨3, 3⟩, ⟨3, 3⟩, ⟨3, 3⟩, ⟨3, 3⟩], 7⟩ := by cbv
  obtain ⟨before, after, hb, ha, backward, _⟩ :=
    solve_equations _ knot (by decide) 50 _ solved 2 (by decide)
  obtain ⟨flow, _, merged⟩ := backward rfl
  exact ⟨_, solved, before, after, hb, ha, flow, merged (by decide)⟩

end Liveness.Solver
