import Mathlib.Data.List.Perm.Basic
import Mathlib.Data.List.Nodup
import Liveness.Proofs.Graph.Walk
import Liveness.Solver.Basic

/-! Every point has one place in the order of visits.

A search marks a point when it comes to it and leaves it behind when it is done with it, so
what a search leaves behind are the points it marked, each once (`Search.Extends`). The
points it did not mark follow, and together they are all the points of the graph
(`perm_order`). How deep the search may go plays no part in this: a point that it does not
come to is among those that follow.

A schedule is therefore a numbering of the points, and a point's rank leads back to it
(`Schedule.Numbers`). -/
namespace Liveness

/-- One search goes on from another among the points below `n`: it marks new points and
leaves each of them behind once. -/
def Search.Extends (n : Nat) (s s' : Search) : Prop :=
  ∃ new : List Nat, new.Nodup ∧ (∀ i ∈ new, i < n ∧ i ∉ s.visited) ∧
    s'.finished = new ++ s.finished ∧ ∀ i, i ∈ s'.visited ↔ i ∈ new ∨ i ∈ s.visited

namespace Search.Extends
variable {n : Nat} {s s' s'' : Search}

theorem refl (n : Nat) (s : Search) : Search.Extends n s s :=
  ⟨[], List.nodup_nil, by simp, rfl, by simp⟩

theorem trans (h : Search.Extends n s s') (h' : Search.Extends n s' s'') :
    Search.Extends n s s'' := by
  obtain ⟨new, nodup, fresh, finished, visited⟩ := h
  obtain ⟨new', nodup', fresh', finished', visited'⟩ := h'
  refine ⟨new' ++ new, ?_, ?_, ?_, ?_⟩
  · rw [List.nodup_append]
    refine ⟨nodup', nodup, ?_⟩
    rintro i hi' _ hi rfl
    exact (fresh' i hi').2 ((visited i).mpr (.inl hi))
  · intro i hi
    rcases List.mem_append.mp hi with hi | hi
    · exact ⟨(fresh' i hi).1, fun h => (fresh' i hi).2 ((visited i).mpr (.inr h))⟩
    · exact fresh i hi
  · rw [finished', finished, List.append_assoc]
  · intro i
    rw [visited', visited, List.mem_append, or_assoc]

theorem foldl {visit : Search → Nat → Search} {next : List Nat}
    (h : ∀ s, ∀ i ∈ next, Search.Extends n s (visit s i)) (s : Search) :
    Search.Extends n s (next.foldl visit s) := by
  induction next generalizing s with
  | nil => exact refl n s
  | cons i next ih =>
    have first := h s i (by simp)
    exact first.trans (ih (fun s j hj => h s j (by simp [hj])) _)

end Search.Extends

namespace FlowGraph
variable {g : FlowGraph}

/-- A visit marks new points and leaves them behind, the point it is made at last. -/
theorem extends_visit (closed : g.Closed) (k : Nat) (s : Search) (i : Nat) (hi : i < g.size) :
    Search.Extends g.size s (g.visit k s i) := by
  induction k generalizing s i with
  | zero => exact .refl _ s
  | succ k ih =>
    rw [visit]
    split
    · exact .refl _ s
    · next unseen =>
      have below : ∀ s, ∀ j ∈ (g.successors i).reverse, Search.Extends g.size s (g.visit k s j) :=
        fun s j hj => ih s j (closed.successor_lt (List.mem_reverse.mp hj))
      obtain ⟨new, nodup, fresh, finished, visited⟩ :=
        Search.Extends.foldl below { s with visited := i :: s.visited }
      refine ⟨i :: new, ?_, ?_, ?_, ?_⟩
      · refine List.nodup_cons.mpr ⟨fun h => (fresh i h).2 (by simp), nodup⟩
      · intro j hj
        rcases List.mem_cons.mp hj with rfl | hj
        · exact ⟨hi, unseen⟩
        · exact ⟨(fresh j hj).1, fun h => (fresh j hj).2 (by simp [h])⟩
      · simp only [finished, List.cons_append]
      · intro j
        rw [visited, List.mem_cons, List.mem_cons]
        tauto

/-- A search leaves nothing behind twice. -/
theorem nodup_finished_search (closed : g.Closed) (entry : g.entry < g.size) :
    g.search.finished.Nodup := by
  obtain ⟨new, nodup, _, finished, _⟩ := extends_visit closed g.size {} g.entry entry
  rwa [search, finished, List.append_nil]

theorem lt_size_of_finished_search (closed : g.Closed) (entry : g.entry < g.size) {i : Nat}
    (hi : i ∈ g.search.finished) : i < g.size := by
  obtain ⟨new, _, fresh, finished, _⟩ := extends_visit closed g.size {} g.entry entry
  rw [search, finished, List.append_nil] at hi
  exact (fresh i hi).1

/-- A search leaves behind what it marks. -/
theorem mem_visited_search (closed : g.Closed) (entry : g.entry < g.size) {i : Nat} :
    i ∈ g.search.visited ↔ i ∈ g.search.finished := by
  obtain ⟨new, _, _, finished, visited⟩ := extends_visit closed g.size {} g.entry entry
  rw [search, finished, visited]
  simp

/-- The order has every point of the graph once. -/
theorem perm_order (closed : g.Closed) {o : PostOrder} (h : g.postOrder? = some o) :
    o.order.Perm (List.range g.size) := by
  unfold postOrder? at h
  split at h
  · next entry =>
    obtain rfl := Option.some.inj h
    rw [List.perm_ext_iff_of_nodup]
    · intro i
      simp only [List.mem_append, List.mem_reverse, List.mem_filter, decide_eq_true_eq,
        mem_visited_search closed entry, List.mem_range]
      constructor
      · rintro (hi | hi)
        · exact lt_size_of_finished_search closed entry hi
        · exact hi.1
      · intro hi
        by_cases hf : i ∈ g.search.finished
        · exact .inl hf
        · exact .inr ⟨hi, hf⟩
    · rw [List.nodup_append, List.nodup_reverse]
      refine ⟨nodup_finished_search closed entry, List.nodup_range.filter _, ?_⟩
      rintro i hi _ hj rfl
      simp only [List.mem_filter, decide_eq_true_eq, mem_visited_search closed entry] at hj
      exact hj.2 (List.mem_reverse.mp hi)
    · exact List.nodup_range
  · cases h

theorem entry_lt_of_postOrder? {o : PostOrder} (h : g.postOrder? = some o) : g.entry < g.size := by
  unfold postOrder? at h
  split at h
  · assumption
  · cases h

theorem exists_postOrder? (entry : g.entry < g.size) : ∃ o, g.postOrder? = some o := by
  unfold postOrder?
  rw [if_pos entry]
  exact ⟨_, rfl⟩

end FlowGraph

theorem PostOrder.perm_schedule (o : PostOrder) (d : Direction) : (o.schedule d).Perm o.order := by
  cases d with
  | backward => exact .refl _
  | forward =>
    have swap := (List.reverse_perm (o.order.take o.reachable)).append_right (o.order.drop o.reachable)
    rwa [List.take_append_drop] at swap

/-- A schedule has every point of the graph once. -/
theorem FlowGraph.perm_schedule {g : FlowGraph} (closed : g.Closed) {o : PostOrder}
    (h : g.postOrder? = some o) (d : Direction) : (o.schedule d).Perm (List.range g.size) :=
  (o.perm_schedule d).trans (perm_order closed h)

namespace Solver

/-- A schedule numbers the points below `n`: each has a rank below `n` that leads back to it,
and no other points are scheduled. -/
structure Schedule.Numbers (schedule : Schedule) (n : Nat) : Prop where
  rank_lt : ∀ i < n, schedule.rank[i]?.getD 0 < n
  order_rank : ∀ i < n, schedule.order[schedule.rank[i]?.getD 0]? = some i
  inside : ∀ r i : Nat, schedule.order[r]? = some i → i < n

/-- Whatever the place, the point that is visited there is one of the graph. -/
theorem Schedule.Numbers.point_lt {schedule : Schedule} {n : Nat} (numbers : schedule.Numbers n)
    (nonempty : 0 < n) (r : Nat) : schedule.order[r]?.getD 0 < n := by
  cases h : schedule.order[r]? with
  | none => exact nonempty
  | some i => exact numbers.inside r i h

/-- The schedule of a graph numbers its points. -/
theorem Schedule.numbers_of {g : FlowGraph} (closed : g.Closed) {o : PostOrder}
    (h : g.postOrder? = some o) (d : Direction) : (Schedule.of o d).Numbers g.size := by
  have perm := FlowGraph.perm_schedule closed h d
  have length : (o.schedule d).length = g.size := by simpa using perm.length_eq
  have rank : ∀ i < g.size, (Schedule.of o d).rank[i]?.getD 0 = (o.schedule d).idxOf i := by
    intro i hi
    simp [Schedule.of, length, hi]
  have listed : ∀ i < g.size, (o.schedule d).idxOf i < (o.schedule d).length := by
    intro i hi
    exact List.idxOf_lt_length_of_mem (perm.mem_iff.mpr (List.mem_range.mpr hi))
  refine ⟨?_, ?_, ?_⟩
  · intro i hi
    rw [rank i hi, ← length]
    exact listed i hi
  · intro i hi
    rw [rank i hi]
    simp [Schedule.of, listed i hi]
  · intro r i hr
    have : i ∈ o.schedule d := by
      simp only [Schedule.of, List.getElem?_toArray] at hr
      exact List.mem_of_getElem? hr
    exact List.mem_range.mp (perm.mem_iff.mp this)

end Solver
end Liveness
