import Liveness.Proofs.Scope.Arena
import Liveness.Proofs.Scope.Resolution

/-! The tree of scopes from the top down.

The pre-order of some scopes lists each of them and right after it, in turn, what is inside
(`Preorder`). It has exactly the scopes from which the way outward passes one of those it starts
from (`Preorder.mem_iff`), and none twice if these are apart (`Preorder.nodup`), since two ways
outward that meet have come through the same scope to where they meet.

A walk inward that stops at nested functions gives the pre-order without the scopes of these
(`Coherent.filter_preorder`). -/
namespace Liveness

/-- What stands in one part of a list only can be looked for there, as elsewhere it would stand a
second time. -/
theorem filter_eq_of_part {α : Type} {part whole : List α} {test : α → Bool} (h : part <:+: whole)
    (once : whole.Nodup) (inside : ∀ a ∈ whole, test a = true → a ∈ part) :
    whole.filter test = part.filter test := by
  obtain ⟨before, after, rfl⟩ := h
  rw [List.append_assoc, List.nodup_append, List.nodup_append] at once
  obtain ⟨_, ⟨_, _, apart_after⟩, apart_before⟩ := once
  have none_before : before.filter test = [] := by
    rw [List.filter_eq_nil_iff]
    intro a ha passes
    have again := inside a (by simp [ha]) passes
    exact apart_before a ha a (List.mem_append_left after again) rfl
  have none_after : after.filter test = [] := by
    rw [List.filter_eq_nil_iff]
    intro a ha passes
    exact apart_after a (inside a (by simp [ha]) passes) a ha rfl
  rw [List.filter_append, List.filter_append, none_before, none_after, List.nil_append,
    List.append_nil]

namespace ScopeForest
variable {f : ScopeForest}

/-! ### Ways outward -/

theorem Outward.mem_chain_iff (out : f.Outward) {r s : Nat} :
    r ∈ f.chain s ↔ r = s ∨ ∃ p, (f.scope s).parent = some p ∧ r ∈ f.chain p := by
  rw [chain_eq out, List.mem_cons]
  cases (f.scope s).parent <;> simp

theorem Outward.mem_chain_self (out : f.Outward) (s : Nat) : s ∈ f.chain s :=
  out.mem_chain_iff.mpr (.inl rfl)

/-- The way outward from a scope goes on with the way outward from those it passes. -/
theorem Outward.mem_chain_trans (out : f.Outward) {r s x : Nat} (hr : r ∈ f.chain s)
    (hs : s ∈ f.chain x) : r ∈ f.chain x := by
  induction x using Nat.strongRecOn with
  | _ x ih =>
    rcases out.mem_chain_iff.mp hs with rfl | ⟨p, hp, hs⟩
    · exact hr
    · exact out.mem_chain_iff.mpr (.inr ⟨p, hp, ih p (out x p hp) hs⟩)

/-- The way outward comes to a scope from inside through one of those that are directly in it. -/
theorem Coherent.mem_chain_iff_child (h : f.Coherent) {s x : Nat} :
    s ∈ f.chain x ↔ s = x ∨ ∃ c ∈ (f.scope s).children, c ∈ f.chain x := by
  have out := h.outward
  constructor
  · intro hs
    induction x using Nat.strongRecOn with
    | _ x ih =>
      rcases out.mem_chain_iff.mp hs with here | ⟨p, hp, hs⟩
      · exact .inl here
      · right
        rcases ih p (out x p hp) hs with rfl | ⟨c, hc, passes⟩
        · exact ⟨x, (h.mem_children s x).mpr ⟨lt_size_of_parent hp, hp⟩, out.mem_chain_self x⟩
        · exact ⟨c, hc, out.mem_chain_iff.mpr (.inr ⟨p, hp, passes⟩)⟩
  · rintro (rfl | ⟨c, hc, passes⟩)
    · exact out.mem_chain_self s
    · have next := out.mem_chain_iff.mpr (.inr ⟨s, ((h.mem_children s c).mp hc).2,
        out.mem_chain_self s⟩)
      exact out.mem_chain_trans next passes

/-- Of two scopes that a way outward passes, one is passed on the way from the other. -/
theorem Outward.chain_total (out : f.Outward) {r s x : Nat} (hr : r ∈ f.chain x)
    (hs : s ∈ f.chain x) : r ∈ f.chain s ∨ s ∈ f.chain r := by
  induction x using Nat.strongRecOn with
  | _ x ih =>
    rcases out.mem_chain_iff.mp hr with rfl | ⟨p, hp, hr'⟩
    · exact .inr hs
    · rcases out.mem_chain_iff.mp hs with rfl | ⟨q, hq, hs'⟩
      · exact .inl hr
      · obtain rfl : p = q := Option.some.inj (hp.symm.trans hq)
        exact ih p (out x p hp) hr' hs'

/-- A way outward passes only one of the scopes that are directly in another. -/
theorem Coherent.child_unique (h : f.Coherent) {s c d x : Nat} (hc : c ∈ (f.scope s).children)
    (hd : d ∈ (f.scope s).children) (passes : c ∈ f.chain x) (passes' : d ∈ f.chain x) : c = d := by
  have direct {c d : Nat} (hc : c ∈ (f.scope s).children) (hd : d ∈ (f.scope s).children)
      (passes : c ∈ f.chain d) : c = d := by
    rcases h.outward.mem_chain_iff.mp passes with same | ⟨p, hp, passes⟩
    · exact same
    · rw [((h.mem_children s d).mp hd).2] at hp
      cases hp
      exact absurd (h.chain_le passes) (Nat.not_le_of_lt (h.inward s c hc).1)
  rcases h.outward.chain_total passes passes' with inner | inner
  · exact direct hc hd inner
  · exact (direct hd hc inner).symm

/-! ### The order -/

/-- The scopes in a list and all scopes inside them, each right before those inside it. -/
inductive Preorder (f : ScopeForest) : List ScopeId → List ScopeId → Prop
  | nil : f.Preorder [] []
  | cons {s : ScopeId} {rest inside others : List ScopeId} :
      f.Preorder (f.scope s).children inside → f.Preorder rest others →
      f.Preorder (s :: rest) (s :: inside ++ others)

theorem Inward.exists_preorder (inw : f.Inward) (roots : List ScopeId) :
    ∃ order, f.Preorder roots order := by
  have listed (roots : List ScopeId)
      (inside : ∀ s ∈ roots, ∃ order, f.Preorder (f.scope s).children order) :
      ∃ order, f.Preorder roots order := by
    induction roots with
    | nil => exact ⟨[], .nil⟩
    | cons s rest ih =>
      obtain ⟨⟨first, hf⟩, others⟩ := List.forall_mem_cons.mp inside
      obtain ⟨last, hl⟩ := ih others
      exact ⟨_, .cons hf hl⟩
  exact listed roots fun s _ => inw.induct (fun s => listed (f.scope s).children) s

namespace Preorder
variable {roots order : List ScopeId}

theorem mem_iff (h : f.Coherent) (pre : f.Preorder roots order) {x : Nat} :
    x ∈ order ↔ ∃ r ∈ roots, r ∈ f.chain x := by
  induction pre with
  | nil => simp
  | @cons s rest inside others _ _ ih ih' =>
    have first : s ∈ f.chain x ↔ x = s ∨ x ∈ inside := by
      rw [h.mem_chain_iff_child, ih, eq_comm]
    rw [List.mem_append, List.mem_cons, ih', ← first]
    simp

theorem nodup (h : f.Arena) (pre : f.Preorder roots order)
    (apart : roots.Pairwise fun r s => ∀ x, r ∈ f.chain x → s ∉ f.chain x) : order.Nodup := by
  induction pre with
  | nil => exact List.nodup_nil
  | @cons s rest inside others below next ih ih' =>
    obtain ⟨first, apart⟩ := List.pairwise_cons.mp apart
    have inner : inside.Nodup := by
      apply ih
      apply (h.children_nodup s).imp_of_mem
      intro c d hc hd other x passes passes'
      exact other (h.child_unique hc hd passes passes')
    have new : s ∉ inside := by
      intro again
      obtain ⟨c, hc, passes⟩ := (mem_iff h.toCoherent below).mp again
      exact absurd (h.chain_le passes) (Nat.not_le_of_lt (h.inward s c hc).1)
    refine List.nodup_append.mpr ⟨List.nodup_cons.mpr ⟨new, inner⟩, ih' apart, ?_⟩
    rintro x hx _ hx' rfl
    have passes : s ∈ f.chain x := by
      apply h.mem_chain_iff_child.mpr
      exact (List.mem_cons.mp hx).imp Eq.symm (mem_iff h.toCoherent below).mp
    obtain ⟨r, hr, passes'⟩ := (mem_iff h.toCoherent next).mp hx'
    exact first r hr x passes passes'

/-- What is inside a scope of the order follows right after it. -/
theorem exists_part (pre : f.Preorder roots order) {s : ScopeId} (hs : s ∈ order) :
    ∃ inside, f.Preorder (f.scope s).children inside ∧ s :: inside <:+: order := by
  induction pre with
  | nil => cases hs
  | @cons r rest inside others below _ ih ih' =>
    rcases List.mem_append.mp hs with hs | hs
    · rcases List.mem_cons.mp hs with rfl | hs
      · exact ⟨inside, below, (List.prefix_append _ others).isInfix⟩
      · obtain ⟨inner, hi, part⟩ := ih hs
        exact ⟨inner, hi, (List.infix_cons part).trans (List.prefix_append _ others).isInfix⟩
    · obtain ⟨inner, hi, part⟩ := ih' hs
      exact ⟨inner, hi, part.trans (List.suffix_append _ others).isInfix⟩

end Preorder

/-! ### The scopes of one function -/

/-- Inside a function's scope no other function comes first on the way outward but those that are
inside as well. -/
theorem Coherent.closestFunction?_inside (h : f.Coherent) {s x : Nat} (passes : s ∈ f.chain x)
    (function : f.isFunctionScope s = true) : ∃ r, f.closestFunction? x = some r ∧ s ≤ r := by
  induction x using Nat.strongRecOn with
  | _ x ih =>
    rw [closestFunction?_eq h.outward]
    split
    · exact ⟨x, rfl, h.chain_le passes⟩
    · next ordinary =>
      rcases h.outward.mem_chain_iff.mp passes with rfl | ⟨p, hp, passes⟩
      · exact absurd function ordinary
      · rw [hp]
        exact ih p (h.outward x p hp) passes

/-- A walk inward that stops at nested functions gives the scopes whose first function on the way
outward is the one around the walk, in their order. -/
theorem Coherent.filter_preorder (h : f.Coherent) {fs : Nat} {roots order : List ScopeId}
    (pre : f.Preorder roots order)
    (inner : ∀ r ∈ roots,
      fs < r ∧ (f.isFunctionScope r = false → f.closestFunction? r = some fs)) :
    order.filter (f.closestFunction? · = some fs) =
      (roots.filter fun r => !f.isFunctionScope r).flatMap f.within := by
  induction pre with
  | nil => rfl
  | @cons s rest inside others below _ ih ih' =>
    obtain ⟨⟨lt, here⟩, others_inner⟩ := List.forall_mem_cons.mp inner
    rw [List.filter_append, ih' others_inner, List.filter_cons, List.filter_cons]
    cases function : f.isFunctionScope s with
    | true =>
      have away (x : Nat) (passes : s ∈ f.chain x) : f.closestFunction? x ≠ some fs := by
        intro first
        obtain ⟨r, found, le⟩ := h.closestFunction?_inside passes function
        rw [first] at found
        cases found
        omega
      have none : inside.filter (f.closestFunction? · = some fs) = [] := by
        rw [List.filter_eq_nil_iff]
        intro x hx
        have passes := h.mem_chain_iff_child.mpr (.inr ((below.mem_iff h).mp hx))
        simpa using away x passes
      simp [none, away s (h.outward.mem_chain_self s)]
    | false =>
      have children : ∀ c ∈ (f.scope s).children,
          fs < c ∧ (f.isFunctionScope c = false → f.closestFunction? c = some fs) := by
        intro c hc
        refine ⟨Nat.lt_trans lt (h.inward s c hc).1, fun ordinary => ?_⟩
        rw [closestFunction?_eq h.outward, if_neg (by simp [ordinary]),
          ((h.mem_children s c).mp hc).2]
        exact here function
      simp [here function, ih children, within_eq h.inward s]

end ScopeForest
end Liveness
