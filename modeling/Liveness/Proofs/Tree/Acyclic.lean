import Liveness.Tree.Descend

/-! Walks in acyclic trees reach the end.

A walk along the links of a tree is cut off at the number of nodes. In an acyclic tree the
cut is never felt: a longer walk would pass a node twice. So the value of a walk at a node
is what its step makes of the values below, and the ancestors of a node are the node
followed by the ancestors of its parent, and nothing in either equation mentions the bound
any more. -/
namespace Liveness

/-- Numbers below `n` without repetition are at most `n` many. -/
theorem length_le_of_nodup {n : Nat} {xs : List Nat} (nodup : xs.Nodup) (below : ∀ x ∈ xs, x < n) :
    xs.length ≤ n := by
  induction n generalizing xs with
  | zero =>
    cases xs with
    | nil => simp
    | cons x _ => exact absurd (below x (by simp)) (by omega)
  | succ n ih =>
    have rest : ∀ x ∈ xs.erase n, x < n := by
      intro x h
      have := below x (List.mem_of_mem_erase h)
      have := (nodup.mem_erase_iff.mp h).1
      omega
    have := ih (nodup.erase n) rest
    have := List.length_erase (a := n) (l := xs)
    split at this <;> omega

namespace Tree

theorem node_of_size_le {t : Tree} {n : NodeId} (h : t.size ≤ n) : t.node n = { kind := .empty } := by
  simp [node, Array.getElem?_eq_none h]

/-- Only nodes of the tree have children. -/
theorem lt_size_of_mem_children {t : Tree} {n c : NodeId} (h : c ∈ t.children n) : n < t.size := by
  rcases Nat.lt_or_ge n t.size with lt | le
  · exact lt
  · rw [children, node_of_size_le le] at h
    cases h

/-- Only nodes of the tree have a parent. -/
theorem lt_size_of_parent {t : Tree} {n p : NodeId} (h : t.parent n = some p) : n < t.size := by
  rcases Nat.lt_or_ge n t.size with lt | le
  · exact lt
  · rw [parent, node_of_size_le le] at h
    cases h

/-- A parent lists the nodes that take it for their parent. -/
def Linked (t : Tree) : Prop := ∀ n p, t.parent n = some p → n ∈ t.children p

/-- The nodes a walk has passed: nodes of the tree, none of them twice. -/
structure Passed (t : Tree) (seen : List NodeId) : Prop where
  nodup : seen.Nodup
  inside : ∀ s ∈ seen, s < t.size

namespace Passed
variable {t : Tree} {seen : List NodeId}

theorem nil : t.Passed [] := ⟨List.nodup_nil, by simp⟩

theorem cons (h : t.Passed seen) {n : NodeId} (fresh : n ∉ seen) (lt : n < t.size) :
    t.Passed (n :: seen) where
  nodup := List.nodup_cons.mpr ⟨fresh, h.nodup⟩
  inside s hs := by
    rcases List.mem_cons.mp hs with rfl | hs
    · exact lt
    · exact h.inside s hs

theorem length_le (h : t.Passed seen) : seen.length ≤ t.size :=
  length_le_of_nodup h.nodup h.inside

end Passed

/-! ### Downwards -/

/-- The nodes below a node: its children and the nodes below them. -/
inductive Below (t : Tree) : NodeId → NodeId → Prop
  | child {n c : NodeId} : c ∈ t.children n → Below t n c
  | deeper {n c m : NodeId} : c ∈ t.children n → Below t c m → Below t n m

theorem Below.lt_size {t : Tree} {n m : NodeId} : t.Below n m → n < t.size
  | .child h | .deeper h _ => lt_size_of_mem_children h

theorem Below.rank_lt {t : Tree} {rank : NodeId → Nat}
    (down : ∀ n, ∀ c ∈ t.children n, rank c < rank n) {n m : NodeId} (h : t.Below n m) :
    rank m < rank n := by
  induction h with
  | child h => exact down _ _ h
  | deeper h _ ih => exact Nat.lt_trans ih (down _ _ h)

theorem Below.snoc {t : Tree} {n m c : NodeId} (h : t.Below n m) (hc : c ∈ t.children m) :
    t.Below n c := by
  induction h with
  | child h => exact .deeper h (.child hc)
  | deeper h _ ih => exact .deeper h (ih hc)

theorem Acyclic.not_below_self {t : Tree} (acyclic : t.Acyclic) (n : NodeId) : ¬ t.Below n n := by
  obtain ⟨rank, down⟩ := acyclic
  exact fun below => Nat.lt_irrefl _ (below.rank_lt down)

/-- A tree is acyclic if its nodes come after their children. -/
theorem acyclic_of_lt {t : Tree} (h : ∀ n < t.size, ∀ c ∈ t.children n, c < n) : t.Acyclic :=
  ⟨id, fun n c hc => h n (lt_size_of_mem_children hc) c hc⟩

/-- The step of a walk looks at nothing but what is below a node. -/
def Local {α : Type u} (t : Tree) (step : Step α) : Prop :=
  ∀ n f g, (∀ m, t.Below n m → f m = g m) → step f n = step g n

/-- With `seen` above a node and room for the rest of the tree, one more level changes
nothing. -/
theorem descendTo_succ {α : Type u} {t : Tree} {rank : NodeId → Nat}
    (down : ∀ n, ∀ c ∈ t.children n, rank c < rank n) {step : Step α} (isLocal : t.Local step)
    (stop : α) (k : Nat) (n : NodeId) (seen : List NodeId) (passed : t.Passed seen)
    (above : ∀ s ∈ seen, rank n < rank s) (room : t.size + 1 ≤ seen.length + k) :
    descendTo step stop (k + 1) n = descendTo step stop k n := by
  induction k generalizing n seen with
  | zero =>
    have := passed.length_le
    omega
  | succ k ih =>
    rw [descendTo, descendTo]
    apply isLocal
    intro m below
    have fresh : n ∉ seen := fun h => Nat.lt_irrefl _ (above n h)
    refine ih m (n :: seen) (passed.cons fresh below.lt_size) ?_
      (by simp only [List.length_cons]; omega)
    intro s hs
    have := below.rank_lt down
    rcases List.mem_cons.mp hs with rfl | hs
    · exact this
    · exact Nat.lt_trans this (above s hs)

/-- The value of a walk at a node is what its step makes of the values below. -/
theorem descend_eq {α : Type u} {t : Tree} (acyclic : t.Acyclic) {step : Step α}
    (isLocal : t.Local step) (stop : α) (n : NodeId) :
    t.descend step stop n = step (t.descend step stop) n := by
  obtain ⟨rank, down⟩ := acyclic
  rw [descend, ← descendTo_succ down isLocal stop (t.size + 1) n [] .nil (by simp) (by simp),
    descendTo]
  rfl

/-- To show something of every node of an acyclic tree, show it of a node below which all
nodes have it. -/
theorem Acyclic.induct_below {t : Tree} (acyclic : t.Acyclic) {P : NodeId → Prop}
    (step : ∀ n, (∀ m, t.Below n m → P m) → P n) (n : NodeId) : P n := by
  obtain ⟨rank, down⟩ := acyclic
  induction h : rank n using Nat.strongRecOn generalizing n with
  | _ r ih => exact step n fun m below => ih (rank m) (h ▸ below.rank_lt down) m rfl

/-- To show something of every node of an acyclic tree, show it of a node whose children
have it. -/
theorem Acyclic.induct {t : Tree} (acyclic : t.Acyclic) {P : NodeId → Prop}
    (step : ∀ n, (∀ c ∈ t.children n, P c) → P n) (n : NodeId) : P n :=
  acyclic.induct_below (fun n below => step n fun c hc => below c (.child hc)) n

theorem flatMap_congr {α : Type u} {f g : NodeId → List α} {ns : List NodeId}
    (h : ∀ n ∈ ns, f n = g n) : ns.flatMap f = ns.flatMap g := by
  rw [List.flatMap, List.flatMap, List.map_congr_left h]

theorem local_preorderStep (t : Tree) : t.Local t.preorderStep := fun n f g h => by
  rw [preorderStep, preorderStep, flatMap_congr fun c hc => h c (.child hc)]

/-- The nodes at and below `n` are `n` and then those at and below each child. -/
theorem preorder_eq {t : Tree} (acyclic : t.Acyclic) (n : NodeId) :
    t.preorder n = n :: (t.children n).flatMap t.preorder :=
  descend_eq acyclic t.local_preorderStep [] n

/-! ### Upwards -/

/-- With `seen` below a node and room for the rest of the tree, one more level changes
nothing. -/
theorem upward_succ {t : Tree} {rank : NodeId → Nat}
    (up : ∀ n p, t.parent n = some p → rank n < rank p) (k : Nat) (n : NodeId) (seen : List NodeId)
    (passed : t.Passed seen) (below : ∀ s ∈ seen, rank s < rank n)
    (room : t.size ≤ seen.length + k) : t.upward (k + 1) n = t.upward k n := by
  have extend : ∀ p, t.parent n = some p → t.Passed (n :: seen) := fun p h =>
    passed.cons (fun h => Nat.lt_irrefl _ (below n h)) (lt_size_of_parent h)
  induction k generalizing n seen with
  | zero =>
    have none : t.parent n = none := by
      cases h : t.parent n with
      | none => rfl
      | some p =>
        have := (extend p h).length_le
        simp only [List.length_cons] at this
        omega
    simp [upward, none]
  | succ k ih =>
    rw [upward, upward]
    cases h : t.parent n with
    | none => rfl
    | some p =>
      have below' : ∀ s ∈ n :: seen, rank s < rank p := by
        intro s hs
        have := up n p h
        rcases List.mem_cons.mp hs with rfl | hs
        · exact this
        · exact Nat.lt_trans (below s hs) this
      congr 1
      refine ih p (n :: seen) (extend p h) below' (by simp only [List.length_cons]; omega) ?_
      exact fun q hq =>
        (extend p h).cons (fun h => Nat.lt_irrefl _ (below' p h)) (lt_size_of_parent hq)

/-- The ancestors of a node are the node and then those of its parent. -/
theorem ancestors_eq {t : Tree} (acyclic : t.Acyclic) (linked : t.Linked) (n : NodeId) :
    t.ancestors n = n :: match t.parent n with
      | some p => t.ancestors p
      | none => [] := by
  obtain ⟨rank, down⟩ := acyclic
  rw [ancestors, ← upward_succ (fun n p h => down p n (linked n p h)) t.size n [] .nil (by simp)
    (by simp), upward]
  rfl

/-- To show something of every node of an acyclic tree, show it of a node whose parent has it. -/
theorem Acyclic.induct_up {t : Tree} (acyclic : t.Acyclic) (linked : t.Linked) {P : NodeId → Prop}
    (step : ∀ n, (∀ p, t.parent n = some p → P p) → P n) (n : NodeId) : P n := by
  induction len : (t.ancestors n).length using Nat.strongRecOn generalizing n with
  | _ k ih =>
    refine step n fun p hp => ih (t.ancestors p).length ?_ p rfl
    rw [← len, ancestors_eq acyclic linked n, hp]
    exact Nat.lt_succ_self _

end Tree
end Liveness
