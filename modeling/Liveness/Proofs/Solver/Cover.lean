import Liveness.Proofs.Solver.Least

/-! What a solution says about paths.

A path from the entry carries the boundary value through the points it leaves. Where joining
is an upper bound and flow is monotone, what it carries is below what leaves one point and so
below what arrives at the next, and a forward solution covers it.

The entry is the exception. What arrives there is the boundary value and nothing that flows
back, so a path is covered beyond the entry only if it came back to it with no more than that.
A path that does not come back always is. -/
namespace Liveness

/-- What leaves the last of a list of points when a value flows through them in order. -/
def Problem.through {L : Type u} (p : Problem L) : List Nat → L → Except AnalysisError L
  | [], x => .ok x
  | i :: rest, x => p.flow i x >>= p.through rest

/-- Joining is an upper bound, and flow is total and monotone at every point of the graph. -/
structure Problem.Ordered {L : Type u} [PartialOrder L] (p : Problem L) (g : FlowGraph) : Prop where
  upper : ∀ xs, ∀ x ∈ xs, x ≤ p.join xs
  total : ∀ i < g.size, ∀ x, ∃ y, p.flow i x = .ok y
  monotone : ∀ i < g.size, ∀ x x' y y', x ≤ x' → p.flow i x = .ok y → p.flow i x' = .ok y' → y ≤ y'

theorem Problem.Lawful.ordered {L : Type u} [PartialOrder L] {p : Problem L} {g : FlowGraph}
    (h : p.Lawful g) : p.Ordered g where
  upper xs _ hx := (h.lub xs (List.ne_nil_of_mem hx)).1 hx
  total := h.total
  monotone := h.monotone

theorem Problem.through_cons {L : Type u} {p : Problem L} {i : Nat} {x y : L}
    (h : p.flow i x = .ok y) (rest : List Nat) : p.through (i :: rest) x = p.through rest y := by
  rw [through, h]
  rfl

/-- The points of a walk begin with the one it starts from. -/
theorem FlowGraph.Walk.points_eq {g : FlowGraph} {i last : Nat} {left : List Nat}
    (h : g.Walk i left last) : ∃ rest, left ++ [last] = i :: rest := by
  cases h with
  | stay => exact ⟨[], rfl⟩
  | go _ _ => exact ⟨_, rfl⟩

namespace Solver
variable {L : Type u} [PartialOrder L] {p : Problem L} {g : FlowGraph}

/-- What leaves a point is below what arrives at a settled point that reads it, unless that is
the origin. -/
theorem Settled.leaving_le {cells : Array (Cell L)} {i j : Nat} (h : Settled p g cells j)
    (ordered : p.Ordered g) (ordinary : j ≠ g.origin p.direction)
    (feeds : i ∈ g.feeders p.direction j) :
    (cell p cells i).leaving ≤ (cell p cells j).arriving := by
  rw [← h.gathers, gather_eq, if_neg ordinary]
  match feeders : g.feeders p.direction j with
  | [] =>
    rw [feeders] at feeds
    cases feeds
  | [k] =>
    rw [feeders, List.mem_singleton] at feeds
    rw [feeds]
  | k :: m :: js =>
    rw [feeders] at feeds
    exact ordered.upper _ _ (List.mem_map_of_mem feeds)

/-- A value below what arrives at a point stays below what arrives along a walk, if it is
below the boundary value whenever the walk is at the entry again. -/
theorem through_le {cells : Array (Cell L)} (forward : p.direction = .forward) (closed : g.Closed)
    (ordered : p.Ordered g) (origin : (cell p cells g.entry).arriving = p.boundary)
    (settled : ∀ i < g.size, Settled p g cells i) {i last : Nat} {left : List Nat}
    (walk : g.Walk i left last) (hi : i < g.size) (x : L) (below : x ≤ (cell p cells i).arriving)
    (returns : ∀ lap rest, left ++ [last] = lap ++ g.entry :: rest → lap ≠ [] →
      ∀ y, p.through lap x = .ok y → y ≤ p.boundary) :
    last < g.size ∧ ∃ y, p.through left x = .ok y ∧ y ≤ (cell p cells last).arriving := by
  induction walk generalizing x with
  | stay i => exact ⟨hi, x, rfl, below⟩
  | @go i j last left next walk ih =>
    obtain ⟨y, hy⟩ := ordered.total i hi x
    have leaves : y ≤ (cell p cells i).leaving :=
      ordered.monotone i hi _ _ _ _ below hy (settled i hi).flows
    have hj : j < g.size := closed.successor_lt next
    have arrives : y ≤ (cell p cells j).arriving := by
      by_cases entry : j = g.entry
      · subst entry
        rw [origin]
        obtain ⟨rest, points⟩ := walk.points_eq
        exact returns [i] rest (congrArg (i :: ·) points) (by simp) y (Problem.through_cons hy [])
      · have feeds : i ∈ g.feeders p.direction j := by
          rw [← FlowGraph.mem_readers_iff, forward]
          exact next
        have ordinary : j ≠ g.origin p.direction := by
          rw [forward]
          exact entry
        exact leaves.trans ((settled j hj).leaving_le ordered ordinary feeds)
    rw [Problem.through_cons hy left]
    refine ih hj y arrives fun lap rest points _ z hz => ?_
    refine returns (i :: lap) rest (congrArg (i :: ·) points) (by simp) z ?_
    rwa [Problem.through_cons hy lap]

/-- **A forward solution covers the paths from the entry.** What a path carries from the entry
is below what the solution has before the path's last point, provided that the path brings no
more than the boundary value whenever it is at the entry again; a path that does not come back
brings nothing. -/
theorem solve_covers_paths [BEq L] [LawfulBEq L] (p : Problem L) (g : FlowGraph)
    (closed : g.Closed) (forward : p.direction = .forward) (ordered : p.Ordered g) (limit : Nat)
    (s : Solution L) (h : (solve p g limit).result = .ok s) (left : List Nat) (last : Nat)
    (walk : g.Walk g.entry left last)
    (returns : ∀ lap rest, left ++ [last] = lap ++ g.entry :: rest → lap ≠ [] →
      ∀ x, p.through lap p.boundary = .ok x → x ≤ p.boundary) :
    ∃ x y, p.through left p.boundary = .ok x ∧ s.before? last = some y ∧ x ≤ y := by
  obtain ⟨⟨origin, _⟩, settled⟩ := settled_of_solve closed h
  obtain ⟨o, _, order, _⟩ := reached_of_solve h
  have entry := FlowGraph.entry_lt_of_postOrder? order
  have origin : (cell p s.cells g.entry).arriving = p.boundary := by
    rw [forward] at origin
    exact origin
  obtain ⟨inside, x, hx, below⟩ :=
    through_le forward closed ordered origin settled walk entry p.boundary origin.ge returns
  refine ⟨x, _, hx, before?_of_solve h inside, ?_⟩
  rw [forward]
  exact below

/-- A graph whose entry leads to itself. -/
def spin : FlowGraph where
  points := #[.implicitReturn, .node 0]
  edges := [⟨1, .always, 1⟩]
  start := some 1

theorem solve_covers_paths_spin :
    ∃ s, (solve (counter .forward 3 0 1 3) spin 50).result = .ok s ∧
      ∃ x y, (counter .forward 3 0 1 3).through [1, 1] 3 = .ok x ∧ s.before? 1 = some y ∧ x ≤ y := by
  have solved : (solve (counter .forward 3 0 1 3) spin 50).result =
      .ok ⟨.forward, #[⟨0, 1⟩, ⟨3, 3⟩], 3⟩ := by cbv
  have flat : ∀ lap, (counter .forward 3 0 1 3).through lap 3 = .ok 3 := by
    intro lap
    induction lap with
    | nil => rfl
    | cons i lap ih => exact ih
  have walk : spin.Walk spin.entry [1, 1] 1 := .go (by decide) (.go (by decide) (.stay 1))
  refine ⟨_, solved, solve_covers_paths _ spin (by decide) rfl (counter_lawful .forward 3 1 3 spin).ordered
    50 _ solved [1, 1] 1 walk fun lap _ _ _ x hx => ?_⟩
  obtain rfl := Except.ok.inj ((flat lap).symm.trans hx)
  exact Nat.le_refl 3

/-- A path that comes back to the entry with more than the boundary value is not covered: once
around, the count is one, and the solution still has zero before the entry. -/
theorem solve_misses_return :
    (counter .forward 0 0 1 1).Ordered spin ∧ spin.Closed ∧ spin.Walk spin.entry [1] 1 ∧
      ∃ s, (solve (counter .forward 0 0 1 1) spin 50).result = .ok s ∧
        ∃ x y, (counter .forward 0 0 1 1).through [1] (counter .forward 0 0 1 1).boundary = .ok x ∧
          s.before? 1 = some y ∧ ¬ x ≤ y := by
  have solved : (solve (counter .forward 0 0 1 1) spin 50).result =
      .ok ⟨.forward, #[⟨0, 1⟩, ⟨0, 1⟩], 3⟩ := by cbv
  exact ⟨(counter_lawful .forward 0 1 1 spin).ordered, by decide, .go (by decide) (.stay 1), _, solved,
    1, 0, rfl, rfl, by decide⟩

end Solver
end Liveness
