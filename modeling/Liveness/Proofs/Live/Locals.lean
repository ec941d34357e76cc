import Liveness.Live.Locals
import Liveness.Proofs.Loop
import Liveness.Proofs.Scope.Resolution

/-! The scopes of a function.

The scopes that a function's variables are taken from are gathered inward, from the scope of its
body down to where other functions begin. Seen from any one scope the question is which function
scope comes first on the way outward. Both walks follow the same links, so they agree once it is
known how the two scopes of a function hang together: the scope of the body is in that of the
parameters, and no other scope is directly in that.

The walk inward can be made by a loop with a stack as well, which gathers the same scopes in the
same order (`ends_localRound`). -/
namespace Liveness

namespace ScopeForest
variable {f : ScopeForest}

/-! ### Gathering with a stack -/

open Loop in
/-- The next scope is noted, and after it come the scopes in it that are not functions'. -/
def localRound (f : ScopeForest) (w : StackWalk ScopeId) :
    Round (StackWalk ScopeId) (List ScopeId) :=
  match w.stack.getLast? with
  | none => .over w.found
  | some s => .again
      { stack := w.stack.dropLast ++
          (f.scope s).children.reverse.filter fun c => !f.isFunctionScope c
        found := w.found ++ [s] }

/-- The scopes directly in a scope that are not functions'. -/
def inner (f : ScopeForest) (s : ScopeId) : List ScopeId :=
  (f.scope s).children.filter fun c => !f.isFunctionScope c

open Loop in
theorem localRound_eq (f : ScopeForest) :
    f.localRound = stackRound f.inner (fun _ => false) (fun _ => true) := by
  funext w
  unfold localRound stackRound
  cases w.stack.getLast? with
  | none => rfl
  | some s => simp [inner, List.filter_reverse]

/-- **The loop gathers the scopes of a function.** If inner scopes come after outer ones, it ends,
and has then gathered what the walk inward does, from the scope of the parameters on. -/
theorem Inward.ends_localRound (inw : f.Inward) (fs bs : ScopeId) :
    Loop.Ends f.localRound ⟨[bs], [fs]⟩ (f.localScopes fs bs) := by
  have wf : WellFounded fun c s => c ∈ f.inner s :=
    ⟨inw.induct fun s below => ⟨s, fun c hc => below c (List.mem_filter.mp hc).1⟩⟩
  have finds : Loop.Finds f.inner (fun _ => false) (fun _ => true) f.within := within_eq inw
  rw [localRound_eq]
  exact Loop.ends_from_root wf finds bs [fs]

/-! ### Membership -/

theorem Coherent.mem_within_iff_child (h : f.Coherent) {r s : Nat} :
    r ∈ f.within s ↔
      r = s ∨ ∃ c ∈ (f.scope s).children, f.isFunctionScope c = false ∧ r ∈ f.within c := by
  rw [within_eq h.inward, List.mem_cons, List.mem_flatMap]
  simp [List.mem_filter, and_assoc]

/-- A scope is among those gathered inward if it is the first of them, or if it is not a
function's and the scope around it is among them. -/
theorem Coherent.mem_within_iff (h : f.Coherent) {r s : Nat} :
    r ∈ f.within s ↔
      r = s ∨ f.isFunctionScope r = false ∧ ∃ p, (f.scope r).parent = some p ∧ p ∈ f.within s := by
  induction s using h.inward.induct with
  | _ s ih =>
    constructor
    · intro member
      rcases h.mem_within_iff_child.mp member with rfl | ⟨c, hc, inner, member⟩
      · exact .inl rfl
      · right
        rcases (ih c hc).mp member with rfl | ⟨ordinary, p, hp, member⟩
        · exact ⟨inner, s, ((h.mem_children s r).mp hc).2, h.mem_within_iff_child.mpr (.inl rfl)⟩
        · exact ⟨ordinary, p, hp, h.mem_within_iff_child.mpr (.inr ⟨c, hc, inner, member⟩)⟩
    · rintro (rfl | ⟨ordinary, p, hp, member⟩)
      · exact h.mem_within_iff_child.mpr (.inl rfl)
      · rcases h.mem_within_iff_child.mp member with rfl | ⟨c, hc, inner, member⟩
        · have listed : r ∈ (f.scope p).children :=
            (h.mem_children p r).mpr ⟨lt_size_of_parent hp, hp⟩
          exact h.mem_within_iff_child.mpr
            (.inr ⟨r, listed, ordinary, h.mem_within_iff_child.mpr (.inl rfl)⟩)
        · exact h.mem_within_iff_child.mpr
            (.inr ⟨c, hc, inner, (ih c hc).mpr (.inr ⟨ordinary, p, hp, member⟩)⟩)

end ScopeForest

namespace Tree.Mirrors
variable {t : Tree} {root : NodeId} {f : ScopeForest} {n name params body : NodeId} {fs bs : Nat}

theorem eq_of_root_eq (h : t.Mirrors root f) {r s : Nat} (hr : r < f.scopes.size)
    (at_n : f.at? n = some s) (same : (f.scope r).root = n) : r = s := by
  have at_r := h.at_root hr
  rw [same, at_n] at at_r
  exact (Option.some.inj at_r).symm

theorem isFunctionScope_body (h : t.Mirrors root f) (parts : t.FunctionParts n name params body)
    (at_body : f.at? body = some bs) : f.isFunctionScope bs = false := by
  rw [Bool.eq_false_iff, ne_eq, h.isFunctionScope_iff at_body, parts.body_block]
  simp

/-- The scope of the body is directly in that of the parameters. -/
theorem parent_body (h : t.Mirrors root f) (tree : t.IsTree)
    (parts : t.FunctionParts n name params body) (at_n : f.at? n = some fs)
    (at_body : f.at? body = some bs) : (f.scope bs).parent = some fs := by
  have opens : t.opens root n = true := (h.opened n).mp ⟨fs, at_n⟩
  rw [h.parent_eq tree at_body, parts.parent_body tree, Option.bind_some, h.findSome?_at tree,
    tree.opener?_of_opens opens]
  exact at_n

/-- No other scope is. -/
theorem eq_body (h : t.Mirrors root f) (tree : t.IsTree)
    (parts : t.FunctionParts n name params body) (inside : root ∈ t.ancestors n)
    (at_n : f.at? n = some fs) (at_body : f.at? body = some bs) {s : Nat}
    (hp : (f.scope s).parent = some fs) : s = bs := by
  have hs := ScopeForest.lt_size_of_parent hp
  have at_s := h.at_root hs
  have around := h.around s hs
  rw [hp, Option.map_some, h.root_eq at_n] at around
  obtain ⟨q, hq, nearest⟩ := Option.bind_eq_some_iff.mp around.symm
  have above : n ∈ t.ancestors q := List.mem_of_find?_eq_some nearest
  have other : (f.scope s).root ≠ n := by
    intro same
    rw [same] at hq
    exact tree.not_mem_ancestors_of_child ((tree.parent_iff q n).mp hq) above
  have below : body ∈ t.ancestors (f.scope s).root :=
    parts.body_above tree inside ((h.opened _).mp ⟨s, at_s⟩)
      (tree.mem_ancestors_of_parent hq above) other
  rcases tree.mem_ancestors_iff.mp below with same | ⟨q', hq', between⟩
  · exact h.eq_of_root_eq hs at_body same.symm
  -- Otherwise the body has a scope between the function and this one.
  · rw [hq] at hq'
    cases hq'
    obtain ⟨k, found, lower⟩ := tree.exists_nearest between ((h.opened body).mp ⟨bs, at_body⟩)
    rw [show (t.ancestors q).find? (t.opens root) = some n from nearest] at found
    cases found
    exact absurd lower (tree.not_mem_ancestors_of_child parts.body_mem)

/-- The scopes of a function are those from which it is the first function on the way
outward. -/
theorem mem_localScopes_iff (h : t.Mirrors root f) (tree : t.IsTree)
    (parts : t.FunctionParts n name params body) (inside : root ∈ t.ancestors n)
    (at_n : f.at? n = some fs) (at_body : f.at? body = some bs) (s : Nat) :
    s ∈ f.localScopes fs bs ↔ f.closestFunction? s = some fs := by
  have out := h.coherent.outward
  have function : f.isFunctionScope fs = true := (h.isFunctionScope_iff at_n).mpr parts.function
  have here : f.closestFunction? fs = some fs := by
    rw [ScopeForest.closestFunction?_eq out, if_pos function]
  rw [ScopeForest.localScopes, List.mem_cons]
  induction s using Nat.strongRecOn with
  | _ s ih =>
    rw [ScopeForest.closestFunction?_eq out]
    constructor
    · rintro (rfl | member)
      · rw [if_pos function]
      · rcases h.coherent.mem_within_iff.mp member with rfl | ⟨ordinary, p, hp, member⟩
        · rw [if_neg (by simp [h.isFunctionScope_body parts at_body]), h.parent_body tree parts at_n at_body]
          exact here
        · rw [if_neg (by simp [ordinary]), hp]
          exact (ih p (out s p hp)).mp (.inr member)
    · intro first
      split at first
      · exact .inl (Option.some.inj first)
      · next ordinary =>
        obtain ⟨p, hp, first⟩ := Option.bind_eq_some_iff.mp first
        right
        rcases (ih p (out s p hp)).mpr first with rfl | member
        · rw [h.eq_body tree parts inside at_n at_body hp]
          exact h.coherent.mem_within_iff.mpr (.inl rfl)
        · exact h.coherent.mem_within_iff.mpr
            (.inr ⟨by simpa using ordinary, p, hp, member⟩)

/-- The variables of a function are those whose scopes are. -/
theorem mem_localVars_iff (h : t.Mirrors root f) (tree : t.IsTree)
    (parts : t.FunctionParts n name params body) (inside : root ∈ t.ancestors n)
    (at_n : f.at? n = some fs) (at_body : f.at? body = some bs) (v : Nat) :
    v ∈ f.localVars fs bs ↔
      v < f.vars.size ∧ f.closestFunction? (f.var v).scope = some fs := by
  rw [ScopeForest.localVars, List.mem_flatMap]
  constructor
  · intro ⟨s, hs, hv⟩
    obtain ⟨lt, rfl⟩ := h.coherent.mem_varsOf_iff.mp hv
    exact ⟨lt, (h.mem_localScopes_iff tree parts inside at_n at_body _).mp hs⟩
  · intro ⟨lt, first⟩
    exact ⟨(f.var v).scope, (h.mem_localScopes_iff tree parts inside at_n at_body _).mpr first,
      h.coherent.mem_varsOf_iff.mpr ⟨lt, rfl⟩⟩

end Tree.Mirrors
end Liveness
