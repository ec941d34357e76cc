import Liveness.Proofs.Solver.Equations

/-! What a limit does to a run.

A run is one step taken again and again, and the limit only says how often. So all runs on a
graph pass through the same states, whatever their limits: a run that may make more visits than
lead to a state is in that state after as many (`Reached.iterate_eq`). If the visits come to an
end by themselves (`Unlimited`), a limit that leaves room for all of them is not felt, the one
that fails included, and a smaller one cuts them off. If they go on forever (`Endless`), every
limit cuts them off.

Nothing is asked of the problem. Even the test for change may say what it likes. -/
namespace Liveness.Solver
variable {L : Type u} [BEq L] {p : Problem L} {g : FlowGraph} {schedule : Schedule}
  {s s' : Progress L}

/-! ### The record of visits -/

/-- A step that goes on adds its visit to the record, which is one to the first point pending. -/
theorem exists_visit_at {r : Nat} {rest : List Nat} (pending : s.pending = r :: rest)
    (h : step p g schedule s = .moved s') :
    ∃ v, v.point = schedule.order[r]?.getD 0 ∧ s'.visits = v :: s.visits := by
  rw [step, pending] at h
  dsimp only at h
  split at h
  · cases h
  · split at h <;> obtain rfl := Next.moved.inj h <;> exact ⟨_, rfl, rfl⟩

theorem exists_visit_of_step (h : step p g schedule s = .moved s') :
    ∃ v, s'.visits = v :: s.visits := by
  obtain ⟨_, _, _, _, visit⟩ := visits_of_step h
  obtain ⟨v, _, visits⟩ := exists_visit_at visit.pending h
  exact ⟨v, visits⟩

theorem length_visits_of_step (h : step p g schedule s = .moved s') :
    s'.visits.length = s.visits.length + 1 := by
  obtain ⟨v, visits⟩ := exists_visit_of_step h
  rw [visits, List.length_cons]

/-- A step that goes on or fails has a point to visit. -/
theorem pending_of_step {next : Next L} (h : step p g schedule s = next) (goes : next ≠ .finished) :
    s.pending ≠ [] := by
  intro empty
  rw [step, empty] at h
  exact goes h.symm

/-- A step fails where the flow through the point it visits fails. -/
theorem flow_of_failed {v : Visit L} {e : AnalysisError} (h : step p g schedule s = .failed v e) :
    (∃ r : Nat, schedule.order[r]?.getD 0 = v.point) ∧
      p.flow v.point (gather p g s.cells v.point) = .error e := by
  unfold step at h
  split at h
  · cases h
  · next r rest _ =>
    dsimp only at h
    split at h
    · next flow =>
      obtain ⟨rfl, rfl⟩ := Next.failed.inj h
      exact ⟨⟨r, rfl⟩, flow⟩
    · split at h <;> cases h

/-! ### Runs without a limit -/

/-- A run that nothing limits, up to its end: nothing is pending any more, or a visit fails. -/
inductive Unlimited (p : Problem L) (g : FlowGraph) (schedule : Schedule) : Run L → Prop
  | finished {s : Progress L} :
      Reached p g schedule s → s.pending = [] → Unlimited p g schedule (s.finish p)
  | failed {s : Progress L} {v : Visit L} {e : AnalysisError} :
      Reached p g schedule s → step p g schedule s = .failed v e →
      Unlimited p g schedule ⟨(v :: s.visits).reverse, .error e⟩

/-- Any number of visits can be made. -/
def Endless (p : Problem L) (g : FlowGraph) (schedule : Schedule) : Prop :=
  ∀ k, ∃ s, Reached p g schedule s ∧ s.visits.length = k

/-- Without a limit the visits come to an end or never do. -/
theorem unlimited_or_endless (p : Problem L) (g : FlowGraph) (schedule : Schedule) :
    (∃ run, Unlimited p g schedule run) ∨ Endless p g schedule := by
  by_cases ends : ∃ run, Unlimited p g schedule run
  · exact .inl ends
  · refine .inr fun k => ?_
    induction k with
    | zero => exact ⟨start p g, .start, rfl⟩
    | succ k ih =>
      obtain ⟨s, reached, rfl⟩ := ih
      cases next : step p g schedule s with
      | finished => exact absurd ⟨_, .finished reached (pending_of_finished next)⟩ ends
      | failed v e => exact absurd ⟨_, .failed reached next⟩ ends
      | moved s' => exact ⟨s', reached.step next, length_visits_of_step next⟩

/-- A run ends with a solution that tells the number of its visits, or at its last visit with
the failure of the flow. -/
theorem Unlimited.result {run : Run L} (h : Unlimited p g schedule run) :
    (∃ solution, run.result = .ok solution ∧ solution.steps = run.visits.length) ∨
      ∃ v x e, run.visits.getLast? = some v ∧ p.flow v.point x = .error e ∧
        run.result = .error e := by
  cases h with
  | finished => exact .inl ⟨_, rfl, List.length_reverse.symm⟩
  | failed _ failed =>
    refine .inr ⟨_, _, _, ?_, (flow_of_failed failed).2, rfl⟩
    rw [List.reverse_cons, List.getLast?_concat]

/-! ### Runs with a limit -/

/-- A run that may make more visits than lead to a state is in that state after as many. -/
theorem Reached.iterate_eq (h : Reached p g schedule s) (limit budget : Nat) :
    iterate p g schedule limit (s.visits.length + budget) (Solver.start p g) =
      iterate p g schedule limit budget s := by
  induction h generalizing budget with
  | start =>
    show iterate p g schedule limit (0 + budget) _ = _
    rw [Nat.zero_add]
  | step _ moved ih =>
    rw [length_visits_of_step moved, Nat.add_assoc, ih, Nat.add_comm 1, iterate, moved]

theorem solve_eq_iterate {o : PostOrder} (order : g.postOrder? = some o) (limit : Nat) :
    solve p g limit = iterate p g (.of o p.direction) limit limit (start p g) := by
  rw [solve, order]

theorem iterate_of_pending_nil (h : s.pending = []) (limit budget : Nat) :
    iterate p g schedule limit budget s = s.finish p := by
  cases budget with
  | zero =>
    rw [iterate, h]
    rfl
  | succ budget => rw [iterate, step, h]

omit [BEq L] in
/-- The record is kept last visit first, so one more visit is none of the first few. -/
theorem take_reverse_cons {limit : Nat} {visits : List (Visit L)} (short : limit ≤ visits.length)
    (v : Visit L) : (v :: visits).reverse.take limit = visits.reverse.take limit := by
  rw [List.reverse_cons, List.take_append_of_le_length (by rwa [List.length_reverse])]

/-- A run is cut off where its limit leaves no room for a visit that is still to be made. -/
theorem Reached.cut (h : Reached p g schedule s) (pending : s.pending ≠ []) {limit : Nat}
    (short : limit ≤ s.visits.length) :
    iterate p g schedule limit limit (Solver.start p g) =
      ⟨s.visits.reverse.take limit, .error (.stepLimit limit)⟩ := by
  have here {s : Progress L} (h : Reached p g schedule s) (pending : s.pending ≠ []) :
      iterate p g schedule s.visits.length s.visits.length (Solver.start p g) =
        ⟨s.visits.reverse.take s.visits.length, .error (.stepLimit s.visits.length)⟩ := by
    have run := h.iterate_eq s.visits.length 0
    rw [Nat.add_zero] at run
    rw [run, iterate, if_neg (by simpa using pending), ← List.length_reverse, List.take_length]
  induction h with
  | start =>
    obtain rfl : limit = 0 := Nat.le_zero.mp short
    exact here .start pending
  | @step s s' before moved ih =>
    rcases Nat.lt_or_eq_of_le short with earlier | rfl
    · obtain ⟨v, visits⟩ := exists_visit_of_step moved
      rw [visits] at earlier ⊢
      have room : limit ≤ s.visits.length := Nat.le_of_lt_succ earlier
      rw [take_reverse_cons room]
      exact ih (pending_of_step moved (by simp)) room
    · exact here (before.step moved) pending

/-- If the visits come to an end, a limit changes nothing or cuts them off. -/
theorem Unlimited.iterate_eq {run : Run L} (h : Unlimited p g schedule run) (limit : Nat) :
    iterate p g schedule limit limit (start p g) =
      if run.visits.length ≤ limit then run
      else ⟨run.visits.take limit, .error (.stepLimit limit)⟩ := by
  cases h with
  | @finished s reached empty =>
    have length : (s.finish p).visits.length = s.visits.length := List.length_reverse
    rw [length]
    split
    · next room =>
      obtain ⟨rest, rfl⟩ := Nat.exists_eq_add_of_le room
      rw [reached.iterate_eq, iterate_of_pending_nil empty]
    · next short =>
      -- The last visit led here from a state in which it was still to be made.
      cases reached with
      | start => exact absurd (Nat.zero_le limit) short
      | step before moved =>
        obtain ⟨v, visits⟩ := exists_visit_of_step moved
        rw [visits] at short
        have room := Nat.le_of_lt_succ (Nat.lt_of_not_le short)
        rw [before.cut (pending_of_step moved (by simp)) room, Progress.finish, visits,
          take_reverse_cons room]
  | @failed s v e reached failed =>
    have length : (v :: s.visits).reverse.length = s.visits.length + 1 := List.length_reverse
    rw [length]
    split
    · next room =>
      obtain ⟨rest, rfl⟩ := Nat.exists_eq_add_of_le room
      rw [Nat.add_assoc, reached.iterate_eq, Nat.add_comm 1, iterate, failed]
    · next short =>
      have room := Nat.le_of_lt_succ (Nat.lt_of_not_le short)
      rw [reached.cut (pending_of_step failed (by simp)) room, take_reverse_cons room]

/-- If the visits never end, every limit cuts them off. -/
theorem Endless.iterate_eq (h : Endless p g schedule) (limit : Nat) :
    (iterate p g schedule limit limit (start p g)).result = .error (.stepLimit limit) := by
  obtain ⟨s, reached, visits⟩ := h (limit + 1)
  cases reached with
  | start => cases visits
  | step before moved =>
    have short := (length_visits_of_step moved).symm.trans visits
    rw [before.cut (pending_of_step moved (by simp)) (by omega)]

/-! ### How a run fails -/

/-- Steps fail at their limit, or where the flow through a point fails. -/
theorem error_of_iterate {limit budget : Nat} {err : AnalysisError}
    (h : (iterate p g schedule limit budget s).result = .error err) :
    err = .stepLimit limit ∨ ∃ i x, p.flow i x = .error err := by
  induction budget generalizing s with
  | zero =>
    rw [iterate] at h
    split at h
    · cases h
    · exact .inl (Except.error.inj h).symm
  | succ budget ih =>
    rw [iterate] at h
    split at h
    · cases h
    · next v e failed =>
      obtain rfl : e = err := Except.error.inj h
      exact .inr ⟨v.point, _, (flow_of_failed failed).2⟩
    · next s' _ => exact ih h

/-- A run fails at its limit, where a graph has no entry, or where the flow through a point fails.
-/
theorem error_of_solve {limit : Nat} {err : AnalysisError}
    (h : (solve p g limit).result = .error err) :
    err = .stepLimit limit ∨ err = .missingEntry ∧ g.size ≤ g.entry ∨
      ∃ i x, p.flow i x = .error err := by
  cases order : g.postOrder? with
  | none =>
    have failed : (solve p g limit).result = .error .missingEntry := by rw [solve, order]
    refine .inr (.inl ⟨Except.error.inj (h.symm.trans failed), Nat.not_lt.mp fun entry => ?_⟩)
    obtain ⟨o, there⟩ := FlowGraph.exists_postOrder? entry
    rw [order] at there
    cases there
  | some o =>
    rw [solve_eq_iterate order] at h
    exact (error_of_iterate h).imp_right .inr

/-! ### Every point is visited -/

/-- A point that does not wait for its visit any more was visited, and what flowed through it
then did not fail. -/
theorem Reached.visited (h : Reached p g schedule s) (numbers : schedule.Numbers g.size)
    {i : Nat} (hi : i < g.size) :
    schedule.rank[i]?.getD 0 ∈ s.pending ∨ ∃ x y, p.flow i x = .ok y := by
  induction h with
  | start => exact .inl (List.mem_range.mpr (numbers.rank_lt i hi))
  | step _ moved ih =>
    obtain ⟨_, _, j, _, visit⟩ := visits_of_step moved
    by_cases here : j = i
    · exact .inr ⟨_, _, here ▸ visit.flow⟩
    · exact ih.imp_left (visit.still_pending numbers hi here)

/-- **A limit cuts a run short or is not felt.** The visits that a solver makes when nothing
limits them come to an end or never do. If they end, with a solution or with a flow that fails,
a run with room for all of them is the same run, and any other makes the first visits of it and
fails at the limit. If they never end, all runs fail at their limits. And as every point is
visited, whether or not the graph leads there, one whose flow always fails leaves no way to a
solution. -/
theorem solve_truncates (p : Problem L) (g : FlowGraph) (entry : g.entry < g.size) :
    ∃ o, g.postOrder? = some o ∧
      ((∃ run, Unlimited p g (.of o p.direction) run) ∨ Endless p g (.of o p.direction)) ∧
      (∀ run, Unlimited p g (.of o p.direction) run →
        ((∃ solution, run.result = .ok solution ∧ solution.steps = run.visits.length) ∨
          ∃ v x e, run.visits.getLast? = some v ∧ p.flow v.point x = .error e ∧
            run.result = .error e) ∧
        ∀ limit, solve p g limit =
          if run.visits.length ≤ limit then run
          else ⟨run.visits.take limit, .error (.stepLimit limit)⟩) ∧
      (Endless p g (.of o p.direction) →
        ∀ limit, (solve p g limit).result = .error (.stepLimit limit)) ∧
      (g.Closed → ∀ i < g.size, (∀ x, ∃ e, p.flow i x = .error e) →
        ∀ limit solution, (solve p g limit).result ≠ .ok solution) := by
  obtain ⟨o, order⟩ := FlowGraph.exists_postOrder? entry
  refine ⟨o, order, unlimited_or_endless p g _, fun run h => ⟨h.result, fun limit => ?_⟩,
    fun endless limit => ?_, fun closed i hi fails limit solution solved => ?_⟩
  · rw [solve_eq_iterate order, h.iterate_eq]
  · rw [solve_eq_iterate order, endless.iterate_eq]
  · obtain ⟨o, last, order, reached, empty, _⟩ := reached_of_solve solved
    have numbers := Schedule.numbers_of closed order p.direction
    rcases reached.visited numbers hi with pending | ⟨x, y, flow⟩
    · rw [empty] at pending
      cases pending
    · obtain ⟨e, fail⟩ := fails x
      rw [fail] at flow
      cases flow

/-- Counting that fails at a point which the entry of `knot` does not reach. -/
def broken : Problem Nat :=
  { counter .backward 0 0 1 3 with
    flow := fun i x => if i = 4 then .error (.expectedName "node 4") else .ok (min (x + 1) 3) }

/-- Counting without a cap. -/
def ascent : Problem Nat := { counter .backward 0 0 1 0 with flow := fun _ x => .ok (x + 1) }

/-- The value of a point that leads to itself never settles. -/
theorem ascent_unsolved (limit : Nat) (solution : Solution Nat) :
    (solve ascent knot limit).result ≠ .ok solution := by
  intro solved
  obtain ⟨_, settled⟩ := settled_of_solve (by decide) solved
  have here := settled 2 (by decide)
  have gathers := here.gathers
  rw [gather_eq, if_neg (by decide)] at gathers
  have above : (cell ascent solution.cells 2).leaving ≤ (cell ascent solution.cells 2).arriving := by
    rw [← gathers]
    show _ ≤ max (max 0 (cell ascent solution.cells 2).leaving) (cell ascent solution.cells 3).leaving
    omega
  have grows : (cell ascent solution.cells 2).arriving + 1 = (cell ascent solution.cells 2).leaving :=
    Except.ok.inj here.flows
  omega

theorem solve_truncates_knot :
    (∃ run, (∃ s, run.result = .ok s ∧ s.steps = 7) ∧
      solve (counter .backward 0 0 1 3) knot 7 = run ∧
      solve (counter .backward 0 0 1 3) knot 6 = ⟨run.visits.take 6, .error (.stepLimit 6)⟩) ∧
    (∀ limit s, (solve broken knot limit).result ≠ .ok s) ∧
    ∀ limit, (solve ascent knot limit).result = .error (.stepLimit limit) := by
  refine ⟨?_, ?_, ?_⟩
  · have solved : (solve (counter .backward 0 0 1 3) knot 50).result =
        .ok ⟨.backward, #[⟨0, 1⟩, ⟨3, 3⟩, ⟨3, 3⟩, ⟨3, 3⟩, ⟨3, 3⟩], 7⟩ := by cbv
    obtain ⟨o, order, ends, unlimited, endless, _⟩ :=
      solve_truncates (counter .backward 0 0 1 3) knot (by decide)
    rcases ends with ⟨run, h⟩ | h
    · obtain ⟨⟨s, result, steps⟩ | ⟨_, _, _, _, flow, _⟩, runs⟩ := unlimited run h
      · have whole := runs 50
        split at whole
        · rw [whole, result] at solved
          obtain rfl := Except.ok.inj solved
          exact ⟨run, ⟨_, result, rfl⟩, (runs 7).trans (if_pos (Nat.le_of_eq steps.symm)),
            (runs 6).trans (if_neg (by rw [← steps]; decide))⟩
        · rw [whole] at solved
          cases solved
      · cases flow
    · rw [endless h] at solved
      cases solved
  · obtain ⟨_, _, _, _, _, fails⟩ := solve_truncates broken knot (by decide)
    exact fails (by decide) 4 (by decide) fun _ => ⟨_, rfl⟩
  · obtain ⟨_, _, ends, unlimited, endless, _⟩ := solve_truncates ascent knot (by decide)
    rcases ends with ⟨run, h⟩ | h
    · obtain ⟨⟨s, solved, _⟩ | ⟨v, x, e, _, flow, _⟩, runs⟩ := unlimited run h
      · have all := runs run.visits.length
        rw [if_pos (Nat.le_refl _)] at all
        rw [← all] at solved
        exact absurd solved (ascent_unsolved _ s)
      · cases flow
    · exact endless h

end Liveness.Solver
