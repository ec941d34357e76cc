import Mathlib.Logic.Relation
import Liveness.Proofs.Graph.Order
import Liveness.Proofs.Tree.Acyclic

/-! The order of the points is a post-order.

A search is at any time on its way along a path from the entry: a point that was marked is on
that path or has been left behind (`Search.Via`). When a point is left behind, all its
successors have been marked. One that was left behind comes before it in the order; one that is
still on the path leads to it, so that the edge closes a cycle. `Search.Sound` says both, and a
visit keeps it (`sound_visit`).

The bound on the depth of the search is never felt. The path does not pass a point twice, so once
the bound is used up every point is on it and there is nothing left to visit. -/
namespace Liveness

namespace FlowGraph

/-- Control can go from one point to another along edges, if only by staying there. -/
abbrev Reaches (g : FlowGraph) : Nat → Nat → Prop :=
  Relation.ReflTransGen fun i j => j ∈ g.successors i

end FlowGraph

/-- Ranks lead from the points to their places, and the order leads back. -/
theorem PostOrder.getElem?_ranks {o : PostOrder} {n : Nat} (perm : o.order.Perm (List.range n))
    {i r : Nat} : o.ranks[i]? = some r ↔ o.order[r]? = some i := by
  have listed : i ∈ o.order ↔ i < o.order.length := by
    rw [perm.mem_iff, perm.length_eq, List.mem_range, List.length_range]
  rw [ranks, List.getElem?_map]
  constructor
  · intro hi
    have lt : i < o.order.length := by
      apply Decidable.byContradiction
      intro out
      simp [out] at hi
    rw [List.getElem?_range lt, Option.map_some, Option.some.injEq] at hi
    rw [← hi]
    exact List.getElem?_idxOf (listed.mpr lt)
  · intro hr
    obtain ⟨lt, rfl⟩ := List.getElem?_eq_some_iff.mp hr
    rw [List.getElem?_range (listed.mp (List.getElem_mem lt)), Option.map_some, rank,
      (perm.nodup_iff.mpr List.nodup_range).idxOf_getElem r lt]

namespace Search
variable {g : FlowGraph} {s s' : Search} {path : List Nat} {i : Nat}

/-- A search has come along `path`, the last point first, and goes on to `i`. -/
structure Via (g : FlowGraph) (s : Search) (path : List Nat) (i : Nat) : Prop where
  nodup : path.Nodup
  inside : ∀ j ∈ path, j < g.size
  marked : ∀ j ∈ path, j ∈ s.visited
  split : ∀ j ∈ s.visited, j ∈ path ∨ j ∈ s.finished
  leads : ∀ j ∈ path, g.Reaches j i

/-- The successors of a point left behind are marked, and each of them was left behind before it or
leads back to it. -/
structure Sound (g : FlowGraph) (s : Search) : Prop where
  followed : ∀ u ∈ s.finished, ∀ v ∈ g.successors u, v ∈ s.visited
  ordered : ∀ u earlier, u :: earlier <:+ s.finished → ∀ v ∈ g.successors u,
    v ∈ earlier ∨ g.Reaches v u

namespace Via

theorem start (g : FlowGraph) (i : Nat) : Via g {} [] i :=
  ⟨List.nodup_nil, by simp, by simp, by simp, by simp⟩

/-- What is marked and left behind on the side does not change the path. -/
theorem extend {n : Nat} (h : Via g s path i) (more : Search.Extends n s s') : Via g s' path i := by
  obtain ⟨new, _, _, finished, visited⟩ := more
  refine ⟨h.nodup, h.inside, ?_, ?_, h.leads⟩
  · intro j hj
    exact (visited j).mpr (.inr (h.marked j hj))
  · intro j hj
    rw [finished, List.mem_append]
    rcases (visited j).mp hj with hj | hj
    · exact .inr (.inl hj)
    · exact (h.split j hj).imp_right .inr

/-- A point that is new is added to the path. -/
theorem enter (h : Via g s path i) (hi : i < g.size) (new : i ∉ s.visited) :
    Via g { s with visited := i :: s.visited } (i :: path) i where
  nodup := List.nodup_cons.mpr ⟨fun old => new (h.marked i old), h.nodup⟩
  inside := List.forall_mem_cons.mpr ⟨hi, h.inside⟩
  marked := List.forall_mem_cons.mpr
    ⟨List.mem_cons_self, fun j hj => List.mem_cons_of_mem i (h.marked j hj)⟩
  split := List.forall_mem_cons.mpr
    ⟨.inl List.mem_cons_self, fun j hj => (h.split j hj).imp_left (List.mem_cons_of_mem i)⟩
  leads := List.forall_mem_cons.mpr ⟨.refl, h.leads⟩

theorem onward (h : Via g s path i) {c : Nat} (hc : c ∈ g.successors i) : Via g s path c :=
  ⟨h.nodup, h.inside, h.marked, h.split, fun j hj => (h.leads j hj).tail hc⟩

/-- A path as long as there are points has passed them all. -/
theorem mem_of_size_le (h : Via g s path i) (full : g.size ≤ path.length) {j : Nat}
    (hj : j < g.size) : j ∈ path := by
  apply Decidable.byContradiction
  intro other
  have longer := length_le_of_nodup (List.nodup_cons.mpr ⟨other, h.nodup⟩)
    (List.forall_mem_cons.mpr ⟨hj, h.inside⟩)
  rw [List.length_cons] at longer
  omega

end Via

theorem Sound.mark (h : s.Sound g) (i : Nat) : Sound g { s with visited := i :: s.visited } :=
  ⟨fun u hu v hv => List.mem_cons_of_mem i (h.followed u hu v hv), h.ordered⟩

/-- A point can be left behind once its successors are marked. -/
theorem Sound.leave (h : s.Sound g) (via : Via g s (i :: path) i)
    (followed : ∀ v ∈ g.successors i, v ∈ s.visited) :
    Sound g { s with finished := i :: s.finished } := by
  refine ⟨List.forall_mem_cons.mpr ⟨followed, h.followed⟩, ?_⟩
  intro u earlier hu v hv
  rcases List.suffix_cons_iff.mp hu with same | hu
  · obtain ⟨rfl, rfl⟩ := List.cons.inj same
    -- A successor that is still on the path is where a cycle closes.
    rcases via.split v (followed v hv) with hv | hv
    · exact .inr (via.leads v hv)
    · exact .inl hv
  · exact h.ordered u earlier hu v hv

end Search

namespace FlowGraph
variable {g : FlowGraph}

/-! ### What a search does -/

/-- Visits to the successors of a point, one after the other, leave a sound search in which these
are marked. -/
theorem sound_foldl (closed : g.Closed) {k i : Nat} {next path : List Nat} {s : Search}
    (visits : ∀ s, ∀ c ∈ next, s.Sound g → s.Via g path c →
      (g.visit k s c).Sound g ∧ c ∈ (g.visit k s c).visited)
    (successors : ∀ c ∈ next, c ∈ g.successors i) (sound : s.Sound g) (via : s.Via g path i) :
    (next.foldl (g.visit k) s).Sound g ∧ (next.foldl (g.visit k) s).Via g path i ∧
      ∀ c ∈ next, c ∈ (next.foldl (g.visit k) s).visited := by
  induction next generalizing s with
  | nil => exact ⟨sound, via, by simp⟩
  | cons c next ih =>
    obtain ⟨successor, successors⟩ := List.forall_mem_cons.mp successors
    obtain ⟨first, visits⟩ := List.forall_mem_cons.mp fun c hc s => visits s c hc
    have step := first s sound (via.onward successor)
    have more := extends_visit closed k s c (closed.successor_lt successor)
    have rest := ih (fun s d hd => visits d hd s) successors step.1 (via.extend more)
    have later : Search.Extends g.size (g.visit k s c) (next.foldl (g.visit k) (g.visit k s c)) :=
      .foldl (fun s d hd => extends_visit closed k s d (closed.successor_lt (successors d hd))) _
    refine ⟨rest.1, rest.2.1, List.forall_mem_cons.mpr ⟨?_, rest.2.2⟩⟩
    obtain ⟨_, _, _, _, visited⟩ := later
    exact (visited c).mpr (.inr step.2)

/-- A visit leaves a sound search, in which the point it is made at is marked. -/
theorem sound_visit (closed : g.Closed) (k : Nat) (s : Search) (path : List Nat) (i : Nat)
    (hi : i < g.size) (room : g.size ≤ path.length + k) (sound : s.Sound g) (via : s.Via g path i) :
    (g.visit k s i).Sound g ∧ i ∈ (g.visit k s i).visited := by
  induction k generalizing s path i with
  | zero => exact ⟨sound, via.marked i (via.mem_of_size_le room hi)⟩
  | succ k ih =>
    rw [visit]
    split
    · next seen => exact ⟨sound, seen⟩
    · next new =>
      have room : g.size ≤ (i :: path).length + k := by
        rw [List.length_cons]
        omega
      have successors : ∀ c ∈ (g.successors i).reverse, c ∈ g.successors i :=
        fun c hc => List.mem_reverse.mp hc
      obtain ⟨sound, via, followed⟩ := sound_foldl closed
        (fun s c hc => ih s (i :: path) c (closed.successor_lt (successors c hc)) room) successors
        (sound.mark i) (via.enter hi new)
      refine ⟨sound.leave via fun v hv => followed v (List.mem_reverse.mpr hv), ?_⟩
      exact via.marked i List.mem_cons_self

/-- What a visit leaves behind can be reached from where it is made. -/
theorem reaches_of_mem_visit (k : Nat) (s : Search) (i : Nat) {j : Nat}
    (hj : j ∈ (g.visit k s i).finished) : j ∈ s.finished ∨ g.Reaches i j := by
  induction k generalizing s i with
  | zero => exact .inl hj
  | succ k ih =>
    have all (next : List Nat) (s : Search) (hj : j ∈ (next.foldl (g.visit k) s).finished) :
        j ∈ s.finished ∨ ∃ c ∈ next, g.Reaches c j := by
      induction next generalizing s with
      | nil => exact .inl hj
      | cons c next ih' =>
        rcases ih' (g.visit k s c) hj with hj | ⟨d, hd, reaches⟩
        · exact (ih s c hj).imp_right fun reaches => ⟨c, List.mem_cons_self, reaches⟩
        · exact .inr ⟨d, List.mem_cons_of_mem c hd, reaches⟩
    rw [visit] at hj
    split at hj
    · exact .inl hj
    · rcases List.mem_cons.mp hj with rfl | hj
      · exact .inr .refl
      · refine (all _ _ hj).imp_right ?_
        rintro ⟨c, hc, reaches⟩
        exact .head (List.mem_reverse.mp hc) reaches

theorem sound_search (closed : g.Closed) (entry : g.entry < g.size) :
    g.search.Sound g ∧ g.entry ∈ g.search.visited :=
  sound_visit closed g.size {} [] g.entry entry (by simp) ⟨by simp, by simp⟩ (.start g g.entry)

/-- A search leaves behind what the entry reaches. -/
theorem mem_finished_search (closed : g.Closed) (entry : g.entry < g.size) {i : Nat} :
    i ∈ g.search.finished ↔ g.Reaches g.entry i := by
  obtain ⟨sound, visited⟩ := sound_search closed entry
  constructor
  · intro hi
    exact (reaches_of_mem_visit _ _ _ hi).resolve_left List.not_mem_nil
  · intro reaches
    induction reaches with
    | refl => exact (mem_visited_search closed entry).mp visited
    | tail _ next ih => exact (mem_visited_search closed entry).mp (sound.followed _ ih _ next)

/-- The entry is left behind last. -/
theorem exists_finished_search (entry : g.entry < g.size) :
    ∃ earlier, g.search.finished = g.entry :: earlier := by
  rw [search]
  cases size : g.size with
  | zero => omega
  | succ k =>
    rw [visit, if_neg List.not_mem_nil]
    exact ⟨_, rfl⟩

/-! ### The order -/

/-- The points that a search leaves behind come first, and then those that it did not mark. -/
theorem postOrder?_eq_some {o : PostOrder} (h : g.postOrder? = some o) :
    o.order = g.search.finished.reverse ++ (List.range g.size).filter (· ∉ g.search.visited) ∧
      o.reachable = g.search.finished.length := by
  unfold postOrder? at h
  split at h
  · obtain rfl := Option.some.inj h
    exact ⟨rfl, rfl⟩
  · cases h

theorem take_order {o : PostOrder} (h : g.postOrder? = some o) :
    o.order.take o.reachable = g.search.finished.reverse := by
  obtain ⟨order, reachable⟩ := postOrder?_eq_some h
  rw [order, reachable]
  exact List.take_left' List.length_reverse

theorem drop_order {o : PostOrder} (h : g.postOrder? = some o) :
    o.order.drop o.reachable = (List.range g.size).filter (· ∉ g.search.visited) := by
  obtain ⟨order, reachable⟩ := postOrder?_eq_some h
  rw [order, reachable]
  exact List.drop_left' List.length_reverse

/-- An edge goes back in the order, or its end leads to its start. -/
theorem rank_lt_or_reaches (closed : g.Closed) {o : PostOrder} (h : g.postOrder? = some o)
    {u v : Nat} (hu : g.Reaches g.entry u) (hv : v ∈ g.successors u) :
    o.rank v < o.rank u ∨ g.Reaches v u := by
  have entry := entry_lt_of_postOrder? h
  obtain ⟨later, earlier, split⟩ :=
    List.append_of_mem ((mem_finished_search closed entry).mpr hu)
  have once : u ∉ earlier := by
    have nodup := nodup_finished_search closed entry
    rw [split] at nodup
    exact (List.nodup_cons.mp (List.nodup_append.mp nodup).2.1).1
  refine ((sound_search closed entry).1.ordered u earlier ⟨later, split.symm⟩ v hv).imp_left ?_
  intro before
  have order : o.order = earlier.reverse ++ u :: (later.reverse ++
      (List.range g.size).filter (· ∉ g.search.visited)) := by
    rw [(postOrder?_eq_some h).1, split]
    simp
  have place : o.rank u = earlier.length := by
    rw [PostOrder.rank, order, List.idxOf_append, if_neg (by simpa using once)]
    simp
  rw [place, PostOrder.rank, order, List.idxOf_append, if_pos (by simpa using before)]
  simpa using List.idxOf_lt_length_of_mem (List.mem_reverse.mpr before)

/-- **The search gives a post-order.** It has every point once, and the ranks lead back from the
points to their places. First come the points that the entry reaches, the entry last among them,
then the others by number. An edge from a point that the entry reaches goes to one that comes
earlier, or closes a cycle. Forwards, the points that the entry reaches are taken the other way
round. -/
theorem search_orders_points (g : FlowGraph) (closed : g.Closed) (entry : g.entry < g.size) :
    ∃ o, g.postOrder? = some o ∧ o.order.Perm (List.range g.size) ∧
      (∀ i r : Nat, o.ranks[i]? = some r ↔ o.order[r]? = some i) ∧
      (∀ i, i ∈ o.order.take o.reachable ↔ g.Reaches g.entry i) ∧
      0 < o.reachable ∧ o.order[o.reachable - 1]? = some g.entry ∧
      (∀ i, i ∈ o.order.drop o.reachable ↔ i < g.size ∧ ¬ g.Reaches g.entry i) ∧
      (o.order.drop o.reachable).Pairwise (· < ·) ∧
      (∀ u v, v ∈ g.successors u → g.Reaches g.entry u → o.rank v < o.rank u ∨ g.Reaches v u) ∧
      o.schedule .forward = (o.order.take o.reachable).reverse ++ o.order.drop o.reachable := by
  obtain ⟨o, h⟩ := exists_postOrder? entry
  obtain ⟨earlier, finished⟩ := exists_finished_search entry
  obtain ⟨order, reachable⟩ := postOrder?_eq_some h
  rw [finished, List.length_cons] at reachable
  refine ⟨o, h, perm_order closed h, fun i r => PostOrder.getElem?_ranks (perm_order closed h),
    fun i => ?_, by omega, ?_, fun i => ?_, ?_,
    fun u v hv hu => rank_lt_or_reaches closed h hu hv, rfl⟩
  · rw [take_order h, List.mem_reverse, mem_finished_search closed entry]
  · rw [order, reachable, finished, List.reverse_cons, List.append_assoc, Nat.add_sub_cancel,
      ← List.length_reverse, List.getElem?_append_right (Nat.le_refl _), Nat.sub_self]
    rfl
  · rw [drop_order h, List.mem_filter, List.mem_range, decide_eq_true_eq,
      mem_visited_search closed entry, mem_finished_search closed entry]
  · rw [drop_order h]
    exact List.pairwise_lt_range.filter _

/-- Two ways through a loop with a point that leads to itself, entered by two edges at once, and a
point that leads there from outside. -/
def maze : FlowGraph where
  points := #[.implicitReturn, .node 0, .node 1, .node 2, .node 3, .node 4]
  edges := [⟨5, .always, 2⟩, ⟨4, .onException, 4⟩, ⟨4, .always, 1⟩, ⟨2, .always, 4⟩, ⟨1, .onFalse, 0⟩,
    ⟨1, .onTrue, 2⟩, ⟨1, .synthetic, 4⟩, ⟨3, .onFalse, 1⟩, ⟨3, .onTrue, 1⟩]
  start := some 3

theorem search_orders_points_maze :
    maze.postOrder? = some ⟨[4, 2, 0, 1, 3, 5], 5⟩ ∧
      (∀ i, i ∈ [4, 2, 0, 1, 3] ↔ maze.Reaches 3 i) ∧ ¬ maze.Reaches 3 5 ∧ maze.Reaches 1 4 := by
  have found : maze.postOrder? = some ⟨[4, 2, 0, 1, 3, 5], 5⟩ := by decide
  obtain ⟨o, h, _, _, reached, _, _, others, _, edges, _⟩ :=
    search_orders_points maze (by decide) (by decide)
  obtain rfl := Option.some.inj (h.symm.trans found)
  refine ⟨h, reached, ((others 5).mp (by decide)).2, ?_⟩
  exact (edges 4 1 (by decide) ((reached 4).mp (by decide))).resolve_left (by decide)

end FlowGraph
end Liveness
