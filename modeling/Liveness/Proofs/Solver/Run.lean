import Liveness.Proofs.Graph.Order

/-! Runs of the solver, one visit at a time.

What a visit does is said once (`Visits`): it takes the first place off the list, writes
one cell, and puts back the places of those who read it if what leaves it has changed. The
states that a solver passes through are those that visits lead to from the start
(`Reached`), and a run that gives a solution ends in such a state with nothing pending
(`reached_of_solve`). Whatever is said of a solution is shown of every state on the way to
it, by induction on `Reached`. -/
namespace Liveness.Solver
variable {L : Type u} {p : Problem L} {g : FlowGraph} {schedule : Schedule}

/-! ### The list of places -/

theorem mem_enqueue {r q : Nat} {pending : List Nat} :
    q ∈ enqueue r pending ↔ q = r ∨ q ∈ pending := by
  induction pending with
  | nil => simp [enqueue]
  | cons first rest ih =>
    rw [enqueue]
    split
    · exact List.mem_cons
    · split
      · next same =>
        subst same
        simp
      · rw [List.mem_cons, ih, List.mem_cons]
        exact or_left_comm

/-- Waking the readers of a point keeps what was pending and adds their places. -/
theorem mem_wake {i q : Nat} {pending : List Nat} :
    q ∈ wake p g schedule i pending ↔
      q ∈ pending ∨ ∃ j ∈ g.readers p.direction i, schedule.rank[j]?.getD 0 = q := by
  unfold wake
  induction g.readers p.direction i generalizing pending with
  | nil => simp
  | cons j rest ih =>
    rw [List.foldl_cons, ih, mem_enqueue, List.exists_mem_cons_iff, eq_comm (a := q)]
    tauto

/-! ### Cells -/

theorem cell_set {cells : Array (Cell L)} {i : Nat} (hi : i < cells.size) (c : Cell L) :
    cell p (cells.setIfInBounds i c) i = c := by
  simp [cell, hi]

theorem cell_set_ne {cells : Array (Cell L)} {i j : Nat} (hij : i ≠ j) (c : Cell L) :
    cell p (cells.setIfInBounds i c) j = cell p cells j := by
  simp [cell, hij]

/-- The cell of a point of the graph is the one that the array has there. -/
theorem getElem?_eq_cell {cells : Array (Cell L)} {i : Nat} (hi : i < cells.size) :
    cells[i]? = some (cell p cells i) := by
  simp [cell, hi]

theorem cell_of_size_le {cells : Array (Cell L)} {i : Nat} (hi : cells.size ≤ i) :
    cell p cells i = ⟨p.initial, p.initial⟩ := by
  simp [cell, Array.getElem?_eq_none hi]

/-- What arrives at a point is what feeds it: nothing new at the origin or without feeders,
the value of a single one as it is, and otherwise the join of one value for each edge. -/
theorem gather_eq (cells : Array (Cell L)) (i : Nat) :
    gather p g cells i =
      if i = g.origin p.direction then (cell p cells i).arriving
      else match g.feeders p.direction i with
        | [] => (cell p cells i).arriving
        | [j] => (cell p cells j).leaving
        | js => p.join (js.map fun j => (cell p cells j).leaving) := by
  unfold gather inputs
  by_cases origin : i = g.origin p.direction
  · rw [if_pos origin, if_pos origin]
  · rw [if_neg origin, if_neg origin]
    match g.feeders p.direction i with
    | [] => rfl
    | [_] => rfl
    | _ :: _ :: _ => rfl

/-- If what feeds a point has not changed since its last visit, another visit would find
the same. -/
theorem gather_again {cells cells' : Array (Cell L)} {i : Nat}
    (feeders : ∀ j ∈ g.feeders p.direction i, (cell p cells' j).leaving = (cell p cells j).leaving)
    (kept : (cell p cells' i).arriving = gather p g cells i) :
    gather p g cells' i = (cell p cells' i).arriving := by
  rw [gather_eq] at kept ⊢
  split at kept
  · next origin => rw [if_pos origin]
  · next origin =>
    rw [if_neg origin]
    split at kept
    · rfl
    · next j one =>
      rw [kept]
      exact feeders j (by rw [one]; simp)
    · rw [kept, List.map_congr_left feeders]

/-! ### Visits -/

section Visits
variable [BEq L]

/-- One visit to the point `i`, which has the place `r` in the schedule. -/
structure Visits (p : Problem L) (g : FlowGraph) (schedule : Schedule) (s s' : Progress L)
    (r : Nat) (rest : List Nat) (i : Nat) (leaving : L) : Prop where
  pending : s.pending = r :: rest
  point : schedule.order[r]?.getD 0 = i
  flow : p.flow i (gather p g s.cells i) = .ok leaving
  cells : s'.cells = s.cells.setIfInBounds i ⟨gather p g s.cells i, leaving⟩
  queue : s'.pending =
    if leaving == (cell p s.cells i).leaving then rest else wake p g schedule i rest

/-- A step that goes on is a visit. -/
theorem visits_of_step {s s' : Progress L} (h : step p g schedule s = .moved s') :
    ∃ r rest i leaving, Visits p g schedule s s' r rest i leaving := by
  unfold step at h
  split at h
  · cases h
  · next r rest pending =>
    dsimp only at h
    split at h
    · cases h
    · next leaving flow =>
      refine ⟨r, rest, _, leaving, pending, rfl, flow, ?_, ?_⟩
      · split at h <;> obtain rfl := Next.moved.inj h <;> rfl
      · split at h <;> obtain rfl := Next.moved.inj h <;> simp [*]

/-- The states that a solver passes through. -/
inductive Reached (p : Problem L) (g : FlowGraph) (schedule : Schedule) : Progress L → Prop
  | start : Reached p g schedule (start p g)
  | step {s s' : Progress L} :
      Reached p g schedule s → step p g schedule s = .moved s' → Reached p g schedule s'

theorem pending_of_finished {s : Progress L} (h : step p g schedule s = .finished) :
    s.pending = [] := by
  unfold step at h
  split at h
  · assumption
  · dsimp only at h
    split at h
    · cases h
    · split at h <;> cases h

/-- Nothing is pending at the end of steps that gave a solution. -/
theorem reached_of_iterate {limit budget : Nat} {s : Progress L} {solution : Solution L}
    (reached : Reached p g schedule s)
    (h : (iterate p g schedule limit budget s).result = .ok solution) :
    ∃ last, Reached p g schedule last ∧ last.pending = [] ∧
      solution = ⟨p.direction, last.cells, last.visits.length⟩ := by
  induction budget generalizing s with
  | zero =>
    rw [iterate] at h
    split at h
    · next empty => exact ⟨s, reached, List.isEmpty_iff.mp empty, (Except.ok.inj h).symm⟩
    · cases h
  | succ budget ih =>
    rw [iterate] at h
    split at h
    · next finished => exact ⟨s, reached, pending_of_finished finished, (Except.ok.inj h).symm⟩
    · cases h
    · next moved => exact ih (reached.step moved) h

/-- A solution is what the cells hold when the solver has nothing left to visit. -/
theorem reached_of_solve {limit : Nat} {solution : Solution L}
    (h : (solve p g limit).result = .ok solution) :
    ∃ o last, g.postOrder? = some o ∧ Reached p g (.of o p.direction) last ∧ last.pending = [] ∧
      solution = ⟨p.direction, last.cells, last.visits.length⟩ := by
  unfold solve at h
  split at h
  · cases h
  · next o order =>
    obtain ⟨last, reached, empty, rfl⟩ := reached_of_iterate .start h
    exact ⟨o, last, order, reached, empty, rfl⟩

/-- There is a cell for every point. -/
theorem Reached.size_cells {s : Progress L} (h : Reached p g schedule s) :
    s.cells.size = g.size := by
  induction h with
  | start => simp [Solver.start]
  | step _ moved ih =>
    obtain ⟨_, _, _, _, visit⟩ := visits_of_step moved
    rw [visit.cells, Array.size_setIfInBounds, ih]

/-- A solution has a value before every point, that of the point's cell. -/
theorem before?_of_solve {limit : Nat} {solution : Solution L}
    (h : (solve p g limit).result = .ok solution) {i : Nat} (hi : i < g.size) :
    solution.before? i = some ((cell p solution.cells i).before p.direction) := by
  obtain ⟨_, last, _, reached, _, rfl⟩ := reached_of_solve h
  rw [Solution.before?, getElem?_eq_cell (reached.size_cells ▸ hi), Option.map_some]

theorem after?_of_solve {limit : Nat} {solution : Solution L}
    (h : (solve p g limit).result = .ok solution) {i : Nat} (hi : i < g.size) :
    solution.after? i = some ((cell p solution.cells i).after p.direction) := by
  obtain ⟨_, last, _, reached, _, rfl⟩ := reached_of_solve h
  rw [Solution.after?, getElem?_eq_cell (reached.size_cells ▸ hi), Option.map_some]

end Visits

/-- At the start the boundary value is at the origin, and the initial one everywhere else. -/
theorem cell_start (i : Nat) : cell p (start p g).cells i =
    if i = g.origin p.direction ∧ i < g.size then ⟨p.boundary, p.initial⟩
      else ⟨p.initial, p.initial⟩ := by
  rcases Nat.lt_or_ge i g.size with lt | le
  · by_cases origin : i = g.origin p.direction
    · subst origin
      simp [cell, Solver.start, lt, Array.getElem_modify]
    · have : ¬ g.origin p.direction = i := fun h => origin h.symm
      simp [cell, Solver.start, lt, origin, this, Array.getElem_modify]
  · rw [cell_of_size_le (by simpa [Solver.start] using le), if_neg (by omega)]

/-! ### Facts about single values -/

/-- Facts about what arrives at each point and what leaves it that no visit can break: they
hold at the start, what a point gathers from values that have them has them, and what flows
through it keeps them. -/
structure Kept (p : Problem L) (g : FlowGraph) (Arrives Leaves : Nat → L → Prop) : Prop where
  boundary : Arrives (g.origin p.direction) p.boundary
  initial : ∀ i, Arrives i p.initial ∧ Leaves i p.initial
  copied : ∀ i < g.size, ∀ j x, i ≠ g.origin p.direction → g.feeders p.direction i = [j] →
    Leaves j x → Arrives i x
  joined : ∀ i < g.size, ∀ value : Nat → L, i ≠ g.origin p.direction →
    g.feeders p.direction i ≠ [] → (∀ j ∈ g.feeders p.direction i, Leaves j (value j)) →
    Arrives i (p.join ((g.feeders p.direction i).map value))
  flows : ∀ i < g.size, ∀ x y, Arrives i x → p.flow i x = .ok y → Leaves i y

namespace Kept
variable {Arrives Leaves : Nat → L → Prop}

theorem gather (kept : Kept p g Arrives Leaves) {cells : Array (Cell L)}
    (h : ∀ j, Arrives j (cell p cells j).arriving ∧ Leaves j (cell p cells j).leaving) {i : Nat}
    (hi : i < g.size) : Arrives i (gather p g cells i) := by
  rw [gather_eq]
  split
  · exact (h i).1
  · next origin =>
    split
    · exact (h i).1
    · next j one => exact kept.copied i hi j _ origin one (h j).2
    · next some _ => exact kept.joined i hi _ origin some fun j _ => (h j).2

/-- Such facts hold of every value in every state that the solver passes through. -/
theorem reached [BEq L] (kept : Kept p g Arrives Leaves) {s : Progress L}
    (h : Reached p g schedule s) (i : Nat) :
    Arrives i (cell p s.cells i).arriving ∧ Leaves i (cell p s.cells i).leaving := by
  induction h generalizing i with
  | start =>
    rw [cell_start]
    split
    · next origin => exact ⟨origin.1 ▸ kept.boundary, (kept.initial i).2⟩
    · exact kept.initial i
  | @step s s' before moved ih =>
    obtain ⟨_, _, k, leaving, visit⟩ := visits_of_step moved
    rw [visit.cells]
    by_cases written : k = i ∧ k < s.cells.size
    · obtain ⟨rfl, lt⟩ := written
      rw [cell_set lt]
      have inside : k < g.size := before.size_cells ▸ lt
      have arrives := kept.gather ih inside
      exact ⟨arrives, kept.flows k inside _ _ arrives visit.flow⟩
    · have same : cell p (s.cells.setIfInBounds k ⟨Solver.gather p g s.cells k, leaving⟩) i =
          cell p s.cells i := by
        rcases Nat.lt_or_ge k s.cells.size with lt | le
        · exact cell_set_ne (fun h => written ⟨h, lt⟩) _
        · rw [Array.setIfInBounds_eq_of_size_le le]
      rw [same]
      exact ih i

/-- Such facts hold of the values of a solution. -/
theorem solve [BEq L] (kept : Kept p g Arrives Leaves) {limit : Nat} {solution : Solution L}
    (h : (solve p g limit).result = .ok solution) (i : Nat) :
    Arrives i (cell p solution.cells i).arriving ∧ Leaves i (cell p solution.cells i).leaving := by
  obtain ⟨_, _, _, reached, _, rfl⟩ := reached_of_solve h
  exact kept.reached reached i

end Kept
end Liveness.Solver
