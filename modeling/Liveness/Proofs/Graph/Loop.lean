import Liveness.Proofs.Graph.PostOrder
import Liveness.Proofs.Loop

/-! The search as a loop.

The recursion that orders the points is cut off at their number. The search can as well be made by a
loop that nothing cuts off. The loop keeps a stack of the points it is on its way through, each with
the successors that it has not followed yet. A point that has none left is left behind, and its
place in the order is written down at once.

A point on top of the stack is worked off as a visit would, whatever lies under it
(`ends_of_visit`). And since no point is left behind twice, no place is written over: what is
written down is the inverse of the order (`placed_eq`). -/
namespace Liveness

/-! ### Places written down -/

/-- The places of points that were left behind in turn, the last one first, written over zeros. -/
def placed (n : Nat) : List Nat → List Nat
  | [] => List.replicate n 0
  | i :: earlier => (placed n earlier).set i earlier.length

theorem length_placed (n : Nat) (finished : List Nat) : (placed n finished).length = n := by
  induction finished with
  | nil => exact List.length_replicate
  | cons i earlier ih => rw [placed, List.length_set, ih]

/-- If no point is left behind twice, its place stays. -/
theorem getElem?_placed {n : Nat} {finished : List Nat} (once : finished.Nodup)
    (inside : ∀ i ∈ finished, i < n) {i r : Nat} (h : finished.reverse[r]? = some i) :
    (placed n finished)[i]? = some r := by
  induction finished with
  | nil => simp at h
  | cons j earlier ih =>
    obtain ⟨new, once⟩ := List.nodup_cons.mp once
    obtain ⟨last, inside⟩ := List.forall_mem_cons.mp inside
    rw [List.reverse_cons] at h
    rw [placed]
    rcases Nat.lt_or_ge r earlier.reverse.length with lt | ge
    · rw [List.getElem?_append_left lt] at h
      have other : j ≠ i := fun same => new (same ▸ List.mem_reverse.mp (List.mem_of_getElem? h))
      rw [List.getElem?_set_ne other]
      exact ih once inside h
    · rw [List.getElem?_append_right ge] at h
      obtain ⟨here, rfl⟩ := List.getElem?_eq_some_iff.mp h
      have place : r = earlier.length := by
        rw [List.length_reverse] at here ge
        rw [List.length_singleton] at here
        omega
      rw [List.getElem_singleton, List.getElem?_set_self ((length_placed n earlier).symm ▸ last), place]

/-- What is written down for an order of all points are the ranks. -/
theorem placed_eq {o : PostOrder} {n : Nat} (perm : o.order.Perm (List.range n)) :
    placed n o.order.reverse = o.ranks := by
  have length : o.ranks.length = n := by
    rw [PostOrder.ranks, List.length_map, List.length_range, perm.length_eq, List.length_range]
  apply List.ext_getElem?
  intro i
  cases hi : o.ranks[i]? with
  | none =>
    rw [List.getElem?_eq_none_iff, length] at hi
    rw [List.getElem?_eq_none_iff, length_placed]
    exact hi
  | some r =>
    apply getElem?_placed
    · exact List.nodup_reverse.mpr (perm.nodup_iff.mpr List.nodup_range)
    · intro j hj
      exact List.mem_range.mp (perm.mem_iff.mp (List.mem_reverse.mp hj))
    · rw [List.reverse_reverse]
      exact (PostOrder.getElem?_ranks perm).mp hi

/-! ### The loop -/

/-- A search under way, and the places written down so far. -/
structure Ranking where
  search : Search := {}
  ranks : List Nat

namespace Ranking

/-- Comes to a point for the first time. -/
def mark (r : Ranking) (i : Nat) : Ranking :=
  { r with search := { r.search with visited := i :: r.search.visited } }

/-- Leaves a point behind, and writes down its place. -/
def leave (r : Ranking) (i : Nat) : Ranking where
  search := { r.search with finished := i :: r.search.finished }
  ranks := r.ranks.set i r.search.finished.length

/-- Adds the points that the search did not come to. -/
def complete (r : Ranking) (n : Nat) : Ranking :=
  (List.range n).foldl (fun r i => if i ∈ r.search.visited then r else r.leave i) r

/-- The places of a search that has written them all down. -/
def ofSearch (n : Nat) (s : Search) : Ranking := ⟨s, placed n s.finished⟩

@[simp] theorem search_ofSearch (n : Nat) (s : Search) : (ofSearch n s).search = s := rfl

theorem leave_ofSearch (n : Nat) (s : Search) (i : Nat) :
    (ofSearch n s).leave i = ofSearch n { s with finished := i :: s.finished } := rfl

/-- Points that are added one after the other end up in their order. -/
theorem foldl_ofSearch (n : Nat) (s : Search) (points : List Nat) :
    points.foldl (fun r i => if i ∈ r.search.visited then r else r.leave i) (ofSearch n s) =
      ofSearch n
        { s with finished := (points.filter (· ∉ s.visited)).reverse ++ s.finished } := by
  induction points generalizing s with
  | nil => rfl
  | cons i points ih =>
    rw [List.foldl_cons, search_ofSearch]
    by_cases seen : i ∈ s.visited
    · rw [if_pos seen, ih, List.filter_cons_of_neg (by simpa using seen)]
    · rw [if_neg seen, leave_ofSearch, ih, List.filter_cons_of_pos (by simpa using seen),
        List.reverse_cons, List.append_assoc]
      rfl

end Ranking

namespace FlowGraph
open Loop
variable {g : FlowGraph}

/-- The points that a search is on its way through, the last one last, each with the successors
that are still to be followed. -/
structure PointWalk where
  stack : List (Nat × List Nat)
  ranking : Ranking

/-- The last successor of the last point is followed, if that leads to a new one. Without a
successor to follow the point is left behind. -/
def searchRound (g : FlowGraph) (w : PointWalk) : Round PointWalk Ranking :=
  match w.stack.getLast? with
  | none => .over w.ranking
  | some (i, pending) =>
    match pending.getLast? with
    | none => .again ⟨w.stack.dropLast, w.ranking.leave i⟩
    | some j =>
      let stack := w.stack.dropLast ++ [(i, pending.dropLast)]
      if j ∈ w.ranking.search.visited then .again ⟨stack, w.ranking⟩
      else .again ⟨stack ++ [(j, g.successors j)], w.ranking.mark j⟩

/-- The entry was come to, and no place has been written down. -/
def searchStart (g : FlowGraph) : PointWalk where
  stack := [(g.entry, g.successors g.entry)]
  ranking := Ranking.mark ⟨{}, List.replicate g.size 0⟩ g.entry

theorem searchRound_leave (g : FlowGraph) (stack : List (Nat × List Nat)) (i : Nat) (r : Ranking) :
    g.searchRound ⟨stack ++ [(i, [])], r⟩ = .again ⟨stack, r.leave i⟩ := by
  simp [searchRound]

theorem searchRound_follow (g : FlowGraph) (stack : List (Nat × List Nat)) (i j : Nat)
    (pending : List Nat) (r : Ranking) :
    g.searchRound ⟨stack ++ [(i, pending ++ [j])], r⟩ =
      if j ∈ r.search.visited then .again ⟨stack ++ [(i, pending)], r⟩
      else .again ⟨stack ++ [(i, pending)] ++ [(j, g.successors j)], r.mark j⟩ := by
  simp [searchRound]

/-! ### Working off the stack -/

theorem visit_of_mem {k i : Nat} {s : Search} (seen : i ∈ s.visited) : g.visit k s i = s := by
  cases k with
  | zero => rfl
  | succ k => rw [visit, if_pos seen]

/-- If a new point on top of the stack is worked off as a visit would, so are the successors of a
point, the last one first. -/
theorem ends_of_pending (closed : g.Closed) {k i : Nat} {path next : List Nat} {s : Search}
    {result : Ranking}
    (visits : ∀ s, ∀ c ∈ next, s.Via g path c → c ∉ s.visited → ∀ stack,
      Ends g.searchRound ⟨stack, .ofSearch g.size (g.visit k s c)⟩ result →
      Ends g.searchRound ⟨stack ++ [(c, g.successors c)], (Ranking.ofSearch g.size s).mark c⟩ result)
    (successors : ∀ c ∈ next, c ∈ g.successors i) (via : s.Via g path i)
    (stack : List (Nat × List Nat))
    (rest : Ends g.searchRound
      ⟨stack ++ [(i, [])], .ofSearch g.size (next.foldl (g.visit k) s)⟩ result) :
    Ends g.searchRound ⟨stack ++ [(i, next.reverse)], .ofSearch g.size s⟩ result := by
  induction next generalizing s with
  | nil => exact rest
  | cons c next ih =>
    obtain ⟨successor, successors⟩ := List.forall_mem_cons.mp successors
    have round := g.searchRound_follow stack i c next.reverse (.ofSearch g.size s)
    rw [List.reverse_cons]
    rw [List.foldl_cons] at rest
    rw [Ranking.search_ofSearch] at round
    obtain ⟨first, visits⟩ := List.forall_mem_cons.mp fun c hc s => visits s c hc
    have visits := fun s d hd => visits d hd s
    by_cases seen : c ∈ s.visited
    · rw [if_pos seen] at round
      rw [visit_of_mem seen] at rest
      exact .again round (ih visits successors via rest)
    · rw [if_neg seen] at round
      have more := extends_visit closed k s c (closed.successor_lt successor)
      have others := ih visits successors (via.extend more) rest
      exact .again round (first s (via.onward successor) seen _ others)

/-- A new point on top of the stack is worked off as a visit would, and the loop goes on with what
lies under it. -/
theorem ends_of_visit (closed : g.Closed) {k i : Nat} {s : Search} {path : List Nat}
    {result : Ranking} (hi : i < g.size) (room : g.size ≤ path.length + k) (via : s.Via g path i)
    (new : i ∉ s.visited) (stack : List (Nat × List Nat))
    (rest : Ends g.searchRound ⟨stack, .ofSearch g.size (g.visit k s i)⟩ result) :
    Ends g.searchRound
      ⟨stack ++ [(i, g.successors i)], (Ranking.ofSearch g.size s).mark i⟩ result := by
  -- The induction is on the depth that is left. Once it is used up every point is on the path.
  induction k generalizing s path i stack with
  | zero => exact absurd (via.marked i (via.mem_of_size_le room hi)) new
  | succ k ih =>
    rw [visit, if_neg new] at rest
    have room : g.size ≤ (i :: path).length + k := by
      rw [List.length_cons]
      omega
    have successors : ∀ c ∈ (g.successors i).reverse, c ∈ g.successors i :=
      fun c hc => List.mem_reverse.mp hc
    have left : Ends g.searchRound ⟨stack ++ [(i, [])], .ofSearch g.size
        ((g.successors i).reverse.foldl (g.visit k) { s with visited := i :: s.visited })⟩ result :=
      .again (g.searchRound_leave stack i _) rest
    have followed := ends_of_pending closed
      (fun s c hc via new stack =>
        ih (closed.successor_lt (successors c hc)) room via new stack)
      successors (via.enter hi new) stack left
    rwa [List.reverse_reverse] at followed

/-- **The loop finds the order.** From an entry that is a point of the graph it ends, and has then
left behind as many points as the order has reachable ones. With the points added that it did not
come to, what it left behind is the order, and the places it wrote down are the ranks. -/
theorem ends_searchRound (closed : g.Closed) {o : PostOrder} (h : g.postOrder? = some o) :
    ∃ r, Ends g.searchRound g.searchStart r ∧ r.search.finished.length = o.reachable ∧
      (r.complete g.size).search.finished.reverse = o.order ∧
      (r.complete g.size).ranks = o.ranks := by
  obtain ⟨order, reachable⟩ := postOrder?_eq_some h
  have completed : ((List.range g.size).filter (· ∉ g.search.visited)).reverse ++
      g.search.finished = o.order.reverse := by
    rw [order]
    simp
  refine ⟨.ofSearch g.size g.search, ?_, reachable.symm, ?_, ?_⟩
  · exact ends_of_visit closed (entry_lt_of_postOrder? h) (by simp) (.start g g.entry)
      List.not_mem_nil [] (.over rfl)
  · rw [Ranking.complete, Ranking.foldl_ofSearch, completed]
    exact List.reverse_reverse _
  · rw [Ranking.complete, Ranking.foldl_ofSearch, completed]
    exact placed_eq (perm_order closed h)

end FlowGraph
end Liveness
