import Mathlib.Data.List.Nodup
import Liveness.Proofs.Tree.Acyclic
import Liveness.Tree.Query

/-! Trees in the strict sense.

A store of nodes is a tree if every node is listed once, by its parent. The way up from a node
then is the only way to it, so being at or below a node and having it among one's ancestors is
the same, and nothing is below two children of a node. Searches up the ancestors are all of one
kind: they find the nearest ancestor with some property, and every other ancestor that has it
is above that one. -/
namespace Liveness.Tree
variable {t : Tree}

/-- Every node is listed at most once, by the node it takes for its parent. -/
structure IsTree (t : Tree) : Prop where
  acyclic : t.Acyclic
  parent_iff : ∀ n c, t.parent c = some n ↔ c ∈ t.children n
  nodup : ∀ n, (t.children n).Nodup

theorem nodup_of_lt (once : ∀ n < t.size, (t.children n).Nodup) (n : NodeId) :
    (t.children n).Nodup := by
  rcases Nat.lt_or_ge n t.size with lt | le
  · exact once n lt
  · rw [children, node_of_size_le le]
    exact List.nodup_nil

/-- A store in which nodes come after their children is a tree if the links agree. -/
theorem isTree_of_lt (down : ∀ n < t.size, ∀ c ∈ t.children n, c < n ∧ t.parent c = some n)
    (up : ∀ c < t.size, (t.parent c).all (fun n => (t.children n).contains c) = true)
    (once : ∀ n < t.size, (t.children n).Nodup) : t.IsTree where
  acyclic := ⟨id, fun n c hc => (down n (lt_size_of_mem_children hc) c hc).1⟩
  parent_iff n c := by
    constructor
    · intro h
      have listed := up c (lt_size_of_parent h)
      rw [h] at listed
      simpa using listed
    · intro h
      exact (down n (lt_size_of_mem_children h) c h).2
  nodup := nodup_of_lt once

namespace IsTree

theorem linked (h : t.IsTree) : t.Linked := fun n p hp => (h.parent_iff p n).mp hp

theorem parent_of_child (h : t.IsTree) {n c : NodeId} (hc : c ∈ t.children n) :
    t.parent c = some n :=
  (h.parent_iff n c).mpr hc

/-! ### The way up -/

theorem ancestors_of_parent (h : t.IsTree) {n p : NodeId} (hp : t.parent n = some p) :
    t.ancestors n = n :: t.ancestors p := by
  rw [ancestors_eq h.acyclic h.linked, hp]

theorem ancestors_of_none (h : t.IsTree) {n : NodeId} (hn : t.parent n = none) :
    t.ancestors n = [n] := by
  rw [ancestors_eq h.acyclic h.linked, hn]

/-- To show something of every node, show it of a node whose parent has it. -/
theorem induct_up (h : t.IsTree) {P : NodeId → Prop}
    (step : ∀ n, (∀ p, t.parent n = some p → P p) → P n) (n : NodeId) : P n :=
  h.acyclic.induct_up h.linked step n

theorem mem_ancestors_iff (h : t.IsTree) {m n : NodeId} :
    m ∈ t.ancestors n ↔ m = n ∨ ∃ p, t.parent n = some p ∧ m ∈ t.ancestors p := by
  cases hp : t.parent n with
  | none => simp [h.ancestors_of_none hp]
  | some p => simp [h.ancestors_of_parent hp]

theorem mem_ancestors_self (h : t.IsTree) (n : NodeId) : n ∈ t.ancestors n :=
  h.mem_ancestors_iff.mpr (.inl rfl)

theorem mem_ancestors_of_parent (h : t.IsTree) {m n p : NodeId} (hp : t.parent n = some p)
    (hm : m ∈ t.ancestors p) : m ∈ t.ancestors n :=
  h.mem_ancestors_iff.mpr (.inr ⟨p, hp, hm⟩)

/-- The way up from an ancestor is the rest of the way up from the node. -/
theorem ancestors_suffix (h : t.IsTree) {m n : NodeId} (hm : m ∈ t.ancestors n) :
    t.ancestors m <:+ t.ancestors n := by
  induction n using h.induct_up with
  | _ n ih =>
    rcases h.mem_ancestors_iff.mp hm with rfl | ⟨p, hp, hm⟩
    · exact List.suffix_rfl
    · rw [h.ancestors_of_parent hp]
      exact (ih p hp hm).trans (List.suffix_cons n _)

theorem mem_ancestors_trans (h : t.IsTree) {k m n : NodeId} (hk : k ∈ t.ancestors m)
    (hm : m ∈ t.ancestors n) : k ∈ t.ancestors n :=
  (h.ancestors_suffix hm).subset hk

/-- A node is on top of its way up. -/
theorem eq_of_ancestors_eq (h : t.IsTree) {m n : NodeId} (same : t.ancestors m = t.ancestors n) :
    m = n := by
  rw [ancestors_eq h.acyclic h.linked m, ancestors_eq h.acyclic h.linked n] at same
  exact (List.cons.inj same).1

theorem ancestors_antisymm (h : t.IsTree) {m n : NodeId} (hm : m ∈ t.ancestors n)
    (hn : n ∈ t.ancestors m) : m = n := by
  apply h.eq_of_ancestors_eq
  have up := h.ancestors_suffix hm
  exact up.eq_of_length (Nat.le_antisymm up.length_le (h.ancestors_suffix hn).length_le)

/-- A child is not above its parent. -/
theorem not_mem_ancestors_of_child (h : t.IsTree) {n c : NodeId} (hc : c ∈ t.children n) :
    c ∉ t.ancestors n := by
  intro above
  have longer := (h.ancestors_suffix above).length_le
  rw [h.ancestors_of_parent (h.parent_of_child hc), List.length_cons] at longer
  omega

/-! ### The way down -/

/-- A node is at or below another if it is that one, or at or below a child of it. -/
theorem mem_ancestors_iff_child (h : t.IsTree) {m n : NodeId} :
    n ∈ t.ancestors m ↔ m = n ∨ ∃ c ∈ t.children n, c ∈ t.ancestors m := by
  constructor
  · intro above
    induction m using h.induct_up with
    | _ m ih =>
      rcases h.mem_ancestors_iff.mp above with rfl | ⟨p, hp, above⟩
      · exact .inl rfl
      · rcases ih p hp above with rfl | ⟨c, hc, between⟩
        · exact .inr ⟨m, (h.parent_iff p m).mp hp, h.mem_ancestors_self m⟩
        · exact .inr ⟨c, hc, h.mem_ancestors_of_parent hp between⟩
  · rintro (rfl | ⟨c, hc, above⟩)
    · exact h.mem_ancestors_self m
    · exact h.mem_ancestors_trans
        (h.mem_ancestors_of_parent (h.parent_of_child hc) (h.mem_ancestors_self n)) above

/-- Nothing is below two children of a node. -/
theorem child_unique (h : t.IsTree) {n c c' m : NodeId} (hc : c ∈ t.children n)
    (hc' : c' ∈ t.children n) (above : c ∈ t.ancestors m) (above' : c' ∈ t.ancestors m) : c = c' := by
  apply h.eq_of_ancestors_eq
  have same : (t.ancestors c).length = (t.ancestors c').length := by
    rw [h.ancestors_of_parent (h.parent_of_child hc), h.ancestors_of_parent (h.parent_of_child hc'),
      List.length_cons, List.length_cons]
  rcases List.suffix_or_suffix_of_suffix (h.ancestors_suffix above) (h.ancestors_suffix above') with
    up | up
  · exact up.eq_of_length same
  · exact (up.eq_of_length same.symm).symm

/-- A walk downward from a node meets the nodes that have it among their ancestors. -/
theorem mem_preorder_iff (h : t.IsTree) {m n : NodeId} :
    m ∈ t.preorder n ↔ n ∈ t.ancestors m := by
  induction n using h.acyclic.induct with
  | _ n ih =>
    rw [preorder_eq h.acyclic, List.mem_cons, List.mem_flatMap, h.mem_ancestors_iff_child]
    refine or_congr_right ⟨?_, ?_⟩
    · intro ⟨c, hc, hm⟩
      exact ⟨c, hc, (ih c hc).mp hm⟩
    · intro ⟨c, hc, hm⟩
      exact ⟨c, hc, (ih c hc).mpr hm⟩

/-- A walk downward meets no node twice. -/
theorem nodup_preorder (h : t.IsTree) (n : NodeId) : (t.preorder n).Nodup := by
  induction n using h.acyclic.induct with
  | _ n ih =>
    rw [preorder_eq h.acyclic, List.nodup_cons, List.nodup_flatMap, List.mem_flatMap]
    refine ⟨?_, ih, (h.nodup n).imp_of_mem fun {c c'} hc hc' other m below below' => ?_⟩
    · rintro ⟨c, hc, above⟩
      exact h.not_mem_ancestors_of_child hc (h.mem_preorder_iff.mp above)
    · have above := h.mem_preorder_iff.mp below
      exact other (h.child_unique hc hc' above (h.mem_preorder_iff.mp below'))

/-! ### Searches up -/

/-- A search up finds the node itself, or else what it finds from the parent. -/
theorem find?_ancestors (h : t.IsTree) (q : NodeId → Bool) (n : NodeId) :
    (t.ancestors n).find? q =
      if q n then some n else (t.parent n).bind fun p => (t.ancestors p).find? q := by
  cases hp : t.parent n with
  | none => cases hq : q n <;> simp [h.ancestors_of_none hp, hq]
  | some p => cases hq : q n <;> simp [h.ancestors_of_parent hp, hq]

theorem findSome?_ancestors (h : t.IsTree) {α : Type} (f : NodeId → Option α) (n : NodeId) :
    (t.ancestors n).findSome? f =
      (f n).or ((t.parent n).bind fun p => (t.ancestors p).findSome? f) := by
  cases hp : t.parent n with
  | none => cases hf : f n <;> simp [h.ancestors_of_none hp, hf]
  | some p => cases hf : f n <;> simp [h.ancestors_of_parent hp, hf]

/-- An ancestor with the property is at or above the one that is found. -/
theorem exists_nearest (h : t.IsTree) {q : NodeId → Bool} {k n : NodeId} (hk : k ∈ t.ancestors n)
    (hq : q k = true) : ∃ m, (t.ancestors n).find? q = some m ∧ k ∈ t.ancestors m := by
  induction n using h.induct_up with
  | _ n ih =>
    rw [h.find?_ancestors]
    by_cases here : q n = true
    · exact ⟨n, if_pos here, hk⟩
    · rw [if_neg here]
      rcases h.mem_ancestors_iff.mp hk with rfl | ⟨p, hp, above⟩
      · exact absurd hq here
      · rw [hp]
        exact ih p hp above

/-- The function around a node is the node itself, or else that around its parent. -/
theorem enclosingFunction?_eq (h : t.IsTree) (n : NodeId) :
    t.enclosingFunction? n =
      if t.isFunction n then some n else (t.parent n).bind t.enclosingFunction? :=
  h.find?_ancestors t.isFunction n

end IsTree
end Liveness.Tree
