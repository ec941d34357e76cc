import Mathlib.Order.Bounds.Basic
import Liveness.Proofs.Solver.Equations

/-! A solution is the least one.

Where values are ordered, the initial value is below all others, joining gives least upper
bounds and flow is monotone, no visit can bring a value above what any assignment to the
points allows that respects the inequations of the problem. That holds of every value at
every moment, however far its neighbours have been brought up to date. -/
namespace Liveness

/-- What makes the least solution on a graph meaningful. -/
structure Problem.Lawful {L : Type u} [PartialOrder L] (p : Problem L) (g : FlowGraph) : Prop where
  bottom : IsBot p.initial
  lub : ∀ xs, xs ≠ [] → IsLUB {x | x ∈ xs} (p.join xs)
  total : ∀ i < g.size, ∀ x, ∃ y, p.flow i x = .ok y
  monotone : ∀ i < g.size, ∀ x x' y y', x ≤ x' → p.flow i x = .ok y → p.flow i x' = .ok y' → y ≤ y'

/-- An assignment of values to both sides of every point that the inequations of the problem
allow. -/
structure Problem.Allows {L : Type u} [PartialOrder L] (p : Problem L) (g : FlowGraph)
    (before after : Nat → L) : Prop where
  backward : p.direction = .backward → p.boundary ≤ after FlowGraph.exit ∧
    (∀ i < g.size, i ≠ FlowGraph.exit → ∀ j ∈ g.successors i, before j ≤ after i) ∧
    ∀ i < g.size, ∀ y, p.flow i (after i) = .ok y → y ≤ before i
  forward : p.direction = .forward → p.boundary ≤ before g.entry ∧
    (∀ i < g.size, i ≠ g.entry → ∀ j ∈ g.predecessors i, after j ≤ before i) ∧
    ∀ i < g.size, ∀ y, p.flow i (before i) = .ok y → y ≤ after i

namespace Solver
variable {L : Type u} [PartialOrder L] {p : Problem L} {g : FlowGraph}

/-- Being below an assignment that the inequations allow is a fact that no visit breaks. -/
theorem kept_le (lawful : p.Lawful g) {arriving leaving : Nat → L}
    (boundary : p.boundary ≤ arriving (g.origin p.direction))
    (fed : ∀ i < g.size, i ≠ g.origin p.direction → ∀ j ∈ g.feeders p.direction i,
      leaving j ≤ arriving i)
    (flow : ∀ i < g.size, ∀ y, p.flow i (arriving i) = .ok y → y ≤ leaving i) :
    Kept p g (fun i x => x ≤ arriving i) (fun i x => x ≤ leaving i) where
  boundary := boundary
  initial i := ⟨lawful.bottom _, lawful.bottom _⟩
  copied i hi j x ordinary one hx := hx.trans (fed i hi ordinary j (by simp [one]))
  joined i hi value ordinary some h := by
    refine (lawful.lub _ (by simpa using some)).2 ?_
    intro x hx
    obtain ⟨j, hj, rfl⟩ := List.mem_map.mp hx
    exact (h j hj).trans (fed i hi ordinary j hj)
  flows i hi x y hx hy := by
    obtain ⟨top, htop⟩ := lawful.total i hi (arriving i)
    exact (lawful.monotone i hi _ _ _ _ hx hy htop).trans (flow i hi top htop)

/-- **A solution is the least one.** Each of its values is below the value that any
assignment allowed by the inequations has at the same point and side. -/
theorem solve_least [BEq L] (p : Problem L) (g : FlowGraph) (lawful : p.Lawful g) (limit : Nat)
    (s : Solution L) (h : (solve p g limit).result = .ok s) (before after : Nat → L)
    (allowed : p.Allows g before after) (i : Nat) (hi : i < g.size) :
    ∃ x y, s.before? i = some x ∧ s.after? i = some y ∧ x ≤ before i ∧ y ≤ after i := by
  refine ⟨_, _, before?_of_solve h hi, after?_of_solve h hi, ?_⟩
  cases direction : p.direction with
  | backward =>
    obtain ⟨boundary, fed, flow⟩ := allowed.backward direction
    have kept : Kept p g (fun i x => x ≤ after i) (fun i x => x ≤ before i) :=
      kept_le lawful (by rw [direction]; exact boundary) (by rw [direction]; exact fed) flow
    exact (kept.solve h i).symm
  | forward =>
    obtain ⟨boundary, fed, flow⟩ := allowed.forward direction
    have kept : Kept p g (fun i x => x ≤ before i) (fun i x => x ≤ after i) :=
      kept_le lawful (by rw [direction]; exact boundary) (by rw [direction]; exact fed) flow
    exact kept.solve h i

/-! ### Counting -/

theorem foldl_max_le_iff (xs : List Nat) (a b : Nat) :
    xs.foldl max a ≤ b ↔ a ≤ b ∧ ∀ x ∈ xs, x ≤ b := by
  induction xs generalizing a with
  | nil => simp
  | cons x xs ih => rw [List.foldl_cons, ih, Nat.max_le, List.forall_mem_cons, and_assoc]

/-- Counting from zero is lawful on every graph. -/
theorem counter_lawful (direction : Direction) (boundary step cap : Nat) (g : FlowGraph) :
    (counter direction boundary 0 step cap).Lawful g where
  bottom := Nat.zero_le
  lub xs _ := by
    rw [isLUB_iff_le_iff]
    intro b
    show xs.foldl max 0 ≤ b ↔ _
    rw [foldl_max_le_iff]
    exact ⟨fun h => h.2, fun h => ⟨Nat.zero_le b, h⟩⟩
  total i _ x := ⟨_, rfl⟩
  monotone i _ x x' y y' hx hy hy' := by
    obtain rfl := Except.ok.inj hy
    obtain rfl := Except.ok.inj hy'
    show min (x + step) (max cap x) ≤ min (x' + step) (max cap x')
    omega

/-- Three is allowed everywhere, and the point in the loop has it. -/
theorem solve_least_knot :
    ∃ s, (solve (counter .forward 0 0 1 3) knot 50).result = .ok s ∧
      (counter .forward 0 0 1 3).Allows knot (fun _ => 3) (fun _ => 3) ∧
      s.before? 2 = some 3 ∧ s.after? 2 = some 3 ∧
      ∃ x y, s.before? 2 = some x ∧ s.after? 2 = some y ∧ x ≤ 3 ∧ y ≤ 3 := by
  have solved : (solve (counter .forward 0 0 1 3) knot 50).result =
      .ok ⟨.forward, #[⟨3, 3⟩, ⟨0, 1⟩, ⟨3, 3⟩, ⟨3, 3⟩, ⟨0, 1⟩], 9⟩ := by cbv
  have allowed : (counter .forward 0 0 1 3).Allows knot (fun _ => 3) (fun _ => 3) := by
    refine ⟨fun h => (by cases h), fun _ => ⟨Nat.zero_le 3, fun _ _ _ _ _ => Nat.le_refl 3, ?_⟩⟩
    intro i _ y hy
    obtain rfl := Except.ok.inj hy
    decide
  exact ⟨_, solved, allowed, rfl, rfl,
    solve_least _ knot (counter_lawful .forward 0 1 3 knot) 50 _ solved _ _ allowed 2 (by decide)⟩

end Solver
end Liveness
