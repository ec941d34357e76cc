import Mathlib.Algebra.BigOperators.Group.Finset.Piecewise
import Mathlib.Algebra.BigOperators.Ring.Finset
import Mathlib.Algebra.Order.BigOperators.Group.Finset
import Mathlib.Order.KrullDimension
import Liveness.Proofs.Solver.Least
import Liveness.Proofs.Solver.Limit

/-! How many visits a run takes.

Every point is on the list at the start, and a place comes back on the list only when the
value of a point it reads has changed. If values can only climb (`Climbs`), a value changes no
more often than its rank has room for, so the places that were ever on the list are bounded by
the points and, for each edge, the height of the climb. That is an account kept at every
moment of a run (`Climbs.paid`): visits made and visits pending are covered by the points and
by what the ranks reached so far allow.

Climbing is asked of the values that can occur only, and of any order that suits them. -/
namespace Liveness

namespace FlowGraph
variable {g : FlowGraph}

/-- Each edge has one point on a side, so edges can be counted by it. -/
theorem sum_length_filter (side : Edge → Nat) {edges : List Edge} {n : Nat}
    (inside : ∀ e ∈ edges, side e < n) :
    ∑ i ∈ Finset.range n, (edges.filter (side · == i)).length = edges.length := by
  induction edges with
  | nil => simp
  | cons e edges ih =>
    have here : ∀ i, ((e :: edges).filter (side · == i)).length =
        (edges.filter (side · == i)).length + if side e = i then 1 else 0 := by
      intro i
      by_cases h : side e = i <;> simp [h]
    have lt : side e < n := inside e (by simp)
    rw [Finset.sum_congr rfl fun i _ => here i, Finset.sum_add_distrib,
      ih fun e he => inside e (by simp [he]), Finset.sum_ite_eq, if_pos (Finset.mem_range.mpr lt),
      List.length_cons]

/-- Over all points there are as many readers as edges. -/
theorem Closed.sum_readers (closed : g.Closed) (d : Direction) :
    ∑ i ∈ Finset.range g.size, (g.readers d i).length = g.edges.length := by
  cases d with
  | forward =>
    simp only [readers, successors, outEdges, List.length_map]
    exact sum_length_filter Edge.source fun e he => (closed e he).1
  | backward =>
    simp only [readers, predecessors, inEdges, List.length_map]
    exact sum_length_filter Edge.target fun e he => (closed e he).2

end FlowGraph

namespace Solver
variable {L : Type u} {p : Problem L} {g : FlowGraph} {schedule : Schedule}

/-! ### The list of places -/

theorem length_enqueue (r : Nat) (pending : List Nat) :
    pending.length ≤ (enqueue r pending).length ∧ (enqueue r pending).length ≤ pending.length + 1 := by
  induction pending with
  | nil => simp [enqueue]
  | cons q rest ih =>
    rw [enqueue]
    split
    · simp
    · split
      · simp
      · simp only [List.length_cons]
        omega

/-- Waking takes nothing off the list and puts at most one place on it for each reader. -/
theorem length_wake (p : Problem L) (g : FlowGraph) (schedule : Schedule) (i : Nat)
    (pending : List Nat) :
    pending.length ≤ (wake p g schedule i pending).length ∧
      (wake p g schedule i pending).length ≤ pending.length + (g.readers p.direction i).length := by
  unfold wake
  induction g.readers p.direction i generalizing pending with
  | nil => simp
  | cons j rest ih =>
    have first := length_enqueue (schedule.rank[j]?.getD 0) pending
    have others := ih (enqueue (schedule.rank[j]?.getD 0) pending)
    simp only [List.foldl_cons, List.length_cons]
    omega

/-- Every point is visited: what was visited and what is pending are at least as many. -/
theorem Reached.size_le [BEq L] {s : Progress L} (h : Reached p g schedule s) :
    g.size ≤ s.visits.length + s.pending.length := by
  induction h with
  | start => simp [Solver.start]
  | step _ moved ih =>
    obtain ⟨r, rest, i, leaving, visit⟩ := visits_of_step moved
    have visits := length_visits_of_step moved
    have before := congrArg List.length visit.pending
    have after := congrArg List.length visit.queue
    have woken := (length_wake p g schedule i rest).1
    simp only [List.length_cons] at before
    split at after <;> omega

/-! ### Climbing -/

/-- The values that occur can only climb: in some order the initial one is lowest, joining and
flow are monotone, and a value above another has a higher rank, which never exceeds the
height. -/
structure Climbs (p : Problem L) (g : FlowGraph) (Occurs : L → Prop) (le : L → L → Prop)
    (rank : L → Nat) (height : Nat) : Prop where
  occurs : Kept p g (fun _ => Occurs) (fun _ => Occurs)
  refl : ∀ x, le x x
  trans : ∀ x y z, le x y → le y z → le x z
  lowest : ∀ x, Occurs x → le p.initial x
  joins : ∀ js (value value' : Nat → L), js ≠ [] → (∀ j, Occurs (value j) ∧ Occurs (value' j)) →
    (∀ j ∈ js, le (value j) (value' j)) → le (p.join (js.map value)) (p.join (js.map value'))
  total : ∀ i < g.size, ∀ x, Occurs x → ∃ y, p.flow i x = .ok y
  flows : ∀ i < g.size, ∀ x x' y y', Occurs x → Occurs x' → le x x' →
    p.flow i x = .ok y → p.flow i x' = .ok y' → le y y'
  rank_lt : ∀ x y, Occurs x → Occurs y → le x y → x ≠ y → rank x < rank y
  rank_le : ∀ x, Occurs x → rank x ≤ height

/-- The visits that the values reached so far can have asked for. -/
def earned (p : Problem L) (g : FlowGraph) (rank : L → Nat) (cells : Array (Cell L)) : Nat :=
  ∑ i ∈ Finset.range g.size, rank (cell p cells i).leaving * (g.readers p.direction i).length

/-- Writing a cell changes what its own point has earned. -/
theorem earned_set (p : Problem L) (rank : L → Nat) {cells : Array (Cell L)} {i : Nat}
    (hi : i < g.size) (size : cells.size = g.size) (c : Cell L) :
    earned p g rank (cells.setIfInBounds i c) +
        rank (cell p cells i).leaving * (g.readers p.direction i).length =
      earned p g rank cells + rank c.leaving * (g.readers p.direction i).length := by
  have mem : i ∈ Finset.range g.size := Finset.mem_range.mpr hi
  unfold earned
  rw [← Finset.add_sum_erase _ _ mem, ← Finset.add_sum_erase (Finset.range g.size)
    (fun j => rank (cell p cells j).leaving * (g.readers p.direction j).length) mem]
  have others : ∀ j ∈ (Finset.range g.size).erase i,
      rank (cell p (cells.setIfInBounds i c) j).leaving * (g.readers p.direction j).length =
        rank (cell p cells j).leaving * (g.readers p.direction j).length := by
    intro j hj
    rw [cell_set_ne (Ne.symm (Finset.mem_erase.mp hj).1)]
  rw [Finset.sum_congr rfl others, cell_set (size ▸ hi)]
  omega

namespace Climbs
variable {Occurs : L → Prop} {le : L → L → Prop} {rank : L → Nat} {height : Nat}

/-- A point gathers more from higher values. -/
theorem gather_le (climbs : Climbs p g Occurs le rank height) {cells cells' : Array (Cell L)}
    (occurs : ∀ j, Occurs (cell p cells j).leaving ∧ Occurs (cell p cells' j).leaving)
    (higher : ∀ j, le (cell p cells j).leaving (cell p cells' j).leaving) {i : Nat}
    (unfed : i = g.origin p.direction ∨ g.feeders p.direction i = [] →
      (cell p cells' i).arriving = (cell p cells i).arriving) :
    le (gather p g cells i) (gather p g cells' i) := by
  rw [gather_eq, gather_eq]
  by_cases origin : i = g.origin p.direction
  · rw [if_pos origin, if_pos origin, unfed (.inl origin)]
    exact climbs.refl _
  · rw [if_neg origin, if_neg origin]
    match feeders : g.feeders p.direction i with
    | [] =>
      rw [unfed (.inr feeders)]
      exact climbs.refl _
    | [j] => exact higher j
    | j :: k :: js => exact climbs.joins _ _ _ (by simp) occurs fun m _ => higher m

/-- No visit would lower a value. -/
def Rising (p : Problem L) (g : FlowGraph) (le : L → L → Prop) (cells : Array (Cell L)) : Prop :=
  ∀ i < g.size, ∀ y, p.flow i (gather p g cells i) = .ok y → le (cell p cells i).leaving y

section Visit
variable [BEq L] {s s' : Progress L} {r : Nat} {rest : List Nat} {i : Nat} {leaving : L}

/-- A visit raises the value of its point and leaves the others as they are. -/
theorem higher (climbs : Climbs p g Occurs le rank height) (rising : Rising p g le s.cells)
    (visit : Visits p g schedule s s' r rest i leaving) (hi : i < g.size)
    (size : s.cells.size = g.size) (j : Nat) :
    le (cell p s.cells j).leaving (cell p s'.cells j).leaving := by
  obtain ⟨here, elsewhere⟩ := visit.cell (size ▸ hi)
  by_cases hij : i = j
  · rw [← hij, here]
    exact rising i hi leaving visit.flow
  · rw [elsewhere j hij]
    exact climbs.refl _

/-- A visit to one point does not let a visit to any point lower its value. -/
theorem rising_visit (climbs : Climbs p g Occurs le rank height) (rising : Rising p g le s.cells)
    (visit : Visits p g schedule s s' r rest i leaving) (hi : i < g.size)
    (size : s.cells.size = g.size)
    (occurs : ∀ j, Occurs (cell p s.cells j).arriving ∧ Occurs (cell p s.cells j).leaving)
    (occurs' : ∀ j, Occurs (cell p s'.cells j).arriving ∧ Occurs (cell p s'.cells j).leaving) :
    Rising p g le s'.cells := by
  obtain ⟨here, elsewhere⟩ := visit.cell (size ▸ hi)
  intro j hj y hy
  have unfed : j = g.origin p.direction ∨ g.feeders p.direction j = [] →
      (cell p s'.cells j).arriving = (cell p s.cells j).arriving := by
    intro unfed
    by_cases hij : i = j
    · subst hij
      rw [here]
      show gather p g s.cells i = _
      rw [gather_eq]
      rcases unfed with origin | none
      · rw [if_pos origin]
      · simp [none]
    · rw [elsewhere j hij]
  have gathers := climbs.gather_le (fun k => ⟨(occurs k).2, (occurs' k).2⟩)
    (climbs.higher rising visit hi size) unfed
  have occursBefore := climbs.occurs.gather occurs hj
  have occursAfter := climbs.occurs.gather occurs' hj
  by_cases hij : i = j
  · subst hij
    rw [here]
    exact climbs.flows i hi _ _ _ _ occursBefore occursAfter gathers visit.flow hy
  · rw [elsewhere j hij]
    obtain ⟨old, hold⟩ := climbs.total j hj _ occursBefore
    exact climbs.trans _ _ _ (rising j hj old hold)
      (climbs.flows j hj _ _ _ _ occursBefore occursAfter gathers hold hy)

end Visit

theorem rising_start (climbs : Climbs p g Occurs le rank height) :
    Rising p g le (start p g).cells := by
  intro i hi y hy
  have initial : (cell p (start p g).cells i).leaving = p.initial := by
    rw [cell_start]
    split <;> rfl
  have occurs : ∀ j, Occurs (cell p (start p g).cells j).arriving ∧
      Occurs (cell p (start p g).cells j).leaving := by
    intro j
    rw [cell_start]
    split
    · exact ⟨climbs.occurs.boundary, (climbs.occurs.initial j).2⟩
    · exact climbs.occurs.initial j
  rw [initial]
  exact climbs.lowest y (climbs.occurs.flows i hi _ _ (climbs.occurs.gather occurs hi) hy)

/-- At no moment would a visit lower a value. -/
theorem rising_of_reached [BEq L] (climbs : Climbs p g Occurs le rank height)
    (numbers : schedule.Numbers g.size) (nonempty : 0 < g.size) {s : Progress L}
    (h : Reached p g schedule s) : Rising p g le s.cells := by
  induction h with
  | start => exact climbs.rising_start
  | step before moved ih =>
    obtain ⟨_, _, _, _, visit⟩ := visits_of_step moved
    exact climbs.rising_visit ih visit (visit.lt_size numbers nonempty) before.size_cells
      (climbs.occurs.reached before) (climbs.occurs.reached (before.step moved))

/-- The visits made and pending are covered by the points and by what the values reached have
earned. -/
theorem paid [BEq L] [LawfulBEq L] (climbs : Climbs p g Occurs le rank height)
    (numbers : schedule.Numbers g.size) (nonempty : 0 < g.size) {s : Progress L}
    (h : Reached p g schedule s) :
    s.visits.length + s.pending.length ≤ g.size + earned p g rank s.cells := by
  induction h with
  | start => simp [Solver.start]
  | @step s s' before moved ih =>
    obtain ⟨r, rest, i, leaving, visit⟩ := visits_of_step moved
    have hi := visit.lt_size numbers nonempty
    have rising := climbs.rising_of_reached numbers nonempty before
    have visits := length_visits_of_step moved
    have pending := congrArg List.length visit.pending
    simp only [List.length_cons] at pending
    have account := earned_set p rank hi before.size_cells ⟨gather p g s.cells i, leaving⟩
    rw [← visit.cells] at account
    dsimp only at account
    by_cases same : leaving = (cell p s.cells i).leaving
    · rw [← same] at account
      rw [visit.queue, if_pos (by simp [same])]
      omega
    · have occurs := climbs.occurs.reached before i
      have occurs' := climbs.occurs.reached (before.step moved) i
      rw [(visit.cell (before.size_cells ▸ hi)).1] at occurs'
      have climbed : rank (cell p s.cells i).leaving < rank leaving :=
        climbs.rank_lt _ _ occurs.2 occurs'.2 (rising i hi leaving visit.flow) (Ne.symm same)
      -- One rank more pays for one place on the list for each reader.
      have pays : rank (cell p s.cells i).leaving * (g.readers p.direction i).length +
          (g.readers p.direction i).length ≤ rank leaving * (g.readers p.direction i).length := by
        rw [← Nat.succ_mul]
        exact Nat.mul_le_mul_right _ climbed
      have woken := (length_wake p g schedule i rest).2
      rw [visit.queue, if_neg (by simpa using same)]
      omega

/-- Values can earn no more than the height for each edge. -/
theorem earned_le [BEq L] (climbs : Climbs p g Occurs le rank height) (closed : g.Closed)
    {s : Progress L} (h : Reached p g schedule s) :
    earned p g rank s.cells ≤ height * g.edges.length := by
  rw [← closed.sum_readers p.direction, Finset.mul_sum]
  refine Finset.sum_le_sum fun i _ => Nat.mul_le_mul_right _ ?_
  exact climbs.rank_le _ (climbs.occurs.reached h i).2

/-- A solution takes at least one visit for each point, and at most as many more as the height
allows for each edge. -/
theorem steps_of_solve [BEq L] [LawfulBEq L] (climbs : Climbs p g Occurs le rank height)
    (closed : g.Closed) {limit : Nat} {solution : Solution L}
    (h : (solve p g limit).result = .ok solution) :
    g.size ≤ solution.steps ∧ solution.steps ≤ g.size + height * g.edges.length := by
  obtain ⟨o, last, order, reached, empty, rfl⟩ := reached_of_solve h
  have numbers := Schedule.numbers_of closed order p.direction
  have nonempty : 0 < g.size := Nat.zero_lt_of_lt (FlowGraph.entry_lt_of_postOrder? order)
  have least := reached.size_le
  have paid := climbs.paid numbers nonempty reached
  have earned := climbs.earned_le closed reached
  simp only [empty, List.length_nil] at least paid
  constructor
  · exact least
  · show last.visits.length ≤ _
    omega

/-- With room for that many visits there is a solution. -/
theorem exists_solution [BEq L] [LawfulBEq L] (climbs : Climbs p g Occurs le rank height)
    (closed : g.Closed) (entry : g.entry < g.size) {limit : Nat}
    (room : g.size + height * g.edges.length ≤ limit) :
    ∃ solution, (solve p g limit).result = .ok solution := by
  have nonempty : 0 < g.size := Nat.zero_lt_of_lt entry
  obtain ⟨o, order⟩ := FlowGraph.exists_postOrder? entry
  have numbers := Schedule.numbers_of closed order p.direction
  have bounded : ∀ s, Reached p g (.of o p.direction) s → s.visits.length + s.pending.length ≤ limit := by
    intro s reached
    have paid := climbs.paid numbers nonempty reached
    have earned := climbs.earned_le closed reached
    omega
  rcases unlimited_or_endless p g (.of o p.direction) with ⟨run, ends⟩ | endless
  · rw [solve_eq_iterate order, ends.iterate_eq]
    cases ends with
    | @finished s reached _ =>
      have visits : (s.finish p).visits.length ≤ limit := by
        have := bounded s reached
        rw [Progress.finish, List.length_reverse]
        omega
      rw [if_pos visits]
      exact ⟨_, rfl⟩
    | failed reached failed =>
      obtain ⟨⟨r, place⟩, fails⟩ := flow_of_failed failed
      have inside := place ▸ numbers.point_lt nonempty r
      obtain ⟨y, flows⟩ := climbs.total _ inside _
        (climbs.occurs.gather (climbs.occurs.reached reached) inside)
      rw [fails] at flows
      cases flows
  · obtain ⟨s, reached, visits⟩ := endless (limit + 1)
    have := bounded s reached
    omega

end Climbs

/-! ### Lattices of bounded height -/

/-- No chain that begins at the bottom is longer than `height`, and then no chain is. -/
theorem height_le [PartialOrder L] (bottom : IsBot p.initial) {height : Nat}
    (chains : ∀ c : LTSeries L, c.head = p.initial → c.length ≤ height) (x : L) :
    Order.height x ≤ height := by
  refine Order.height_le fun c _ => ?_
  rw [Nat.cast_le]
  rcases (bottom c.head).eq_or_lt with head | below
  · exact chains c head.symm
  · have longer := chains (c.cons p.initial below) (RelSeries.head_cons c _ below)
    exact (Nat.le_succ _).trans (by simpa using longer)

/-- Where the lattice has bounded height a lawful problem climbs. -/
theorem climbs_of_lawful [PartialOrder L] (lawful : p.Lawful g) {height : Nat}
    (chains : ∀ c : LTSeries L, c.head = p.initial → c.length ≤ height) :
    Climbs p g (fun _ => True) (· ≤ ·) (fun x => (Order.height x).toNat) height where
  occurs := ⟨trivial, fun _ => ⟨trivial, trivial⟩, fun _ _ _ _ _ _ _ => trivial,
    fun _ _ _ _ _ _ => trivial, fun _ _ _ _ _ _ => trivial⟩
  refl := le_refl
  trans _ _ _ := le_trans
  lowest x _ := lawful.bottom x
  joins js value value' some _ higher := by
    refine (lawful.lub _ (by simpa using some)).2 ?_
    intro x hx
    obtain ⟨j, hj, rfl⟩ := List.mem_map.mp hx
    exact (higher j hj).trans
      ((lawful.lub (js.map value') (by simpa using some)).1 (List.mem_map_of_mem hj))
  total i hi x _ := lawful.total i hi x
  flows i hi x x' y y' _ _ := lawful.monotone i hi x x' y y'
  rank_lt x y _ _ below different := by
    have finite : ∀ z : L, Order.height z < ⊤ := fun z =>
      (height_le lawful.bottom chains z).trans_lt (ENat.natCast_lt_top height)
    have climbed := Order.height_strictMono (below.lt_of_ne different) (finite x)
    rw [← ENat.natCast_toNat (finite x).ne, ← ENat.natCast_toNat (finite y).ne] at climbed
    exact Nat.cast_lt.mp climbed
  rank_le x _ := ENat.toNat_le_of_le_natCast (height_le lawful.bottom chains x)

/-- A lawful problem on a lattice of bounded height converges. A solution takes at least one visit
for each point and at most as many more as the height for each edge, and with room for that many
there is one. -/
theorem converges_of_lawful [PartialOrder L] [BEq L] [LawfulBEq L] (closed : g.Closed)
    (entry : g.entry < g.size) (lawful : p.Lawful g) {height : Nat}
    (chains : ∀ c : LTSeries L, c.head = p.initial → c.length ≤ height) :
    (∀ limit s, (solve p g limit).result = .ok s →
      g.size ≤ s.steps ∧ s.steps ≤ g.size + height * g.edges.length) ∧
    ∀ limit, g.size + height * g.edges.length ≤ limit →
      ∃ s, (solve p g limit).result = .ok s := by
  have climbs := climbs_of_lawful lawful chains
  exact ⟨fun limit s solved => climbs.steps_of_solve closed solved,
    fun limit room => climbs.exists_solution closed entry room⟩

end Solver
end Liveness
