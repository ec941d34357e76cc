import Mathlib.Control.Monad.Basic
import Liveness.Proofs.Scope.Resolution

/-! Which function a place belongs to.

The function around a place can be found by going up through the text to the nearest function. It
can also be found by going up to the nearest node with a scope, and from there outward through the
scopes to the first that is a function's. Every function of a program has a scope, and the way
outward through scopes passes the constructs that have one in the order of the text, so both ways
end at the same function (`closestFunction?_at`), and a variable's owner is the nearest function
around the construct that declares it.

The way through the text may lead out of the program and the way through scopes may not. Nothing
is lost by that if the program is a function, where both end at the latest, or has nothing around
it. -/
namespace Liveness

namespace Tree.Mirrors
variable {t : Tree} {root : NodeId} {f : ScopeForest}

/-- Outward from the scope around a place, the first function's scope is that of the nearest
function. -/
theorem closestFunction?_at (h : t.Mirrors root f) (tree : t.IsTree)
    (whole : t.kind root = .function ∨ t.parent root = none) {n : NodeId}
    (inside : root ∈ t.ancestors n) :
    ((t.ancestors n).findSome? f.at?).bind
        (fun s => (f.closestFunction? s).map fun r => (f.scope r).root) =
      t.enclosingFunction? n := by
  induction n using tree.induct_up with
  | _ n ih =>
    have above (ordinary : t.kind n ≠ .function) :
        ((t.parent n).bind fun q => (t.ancestors q).findSome? f.at?).bind
            (fun s => (f.closestFunction? s).map fun r => (f.scope r).root) =
          (t.parent n).bind t.enclosingFunction? := by
      cases hq : t.parent n with
      | none => rfl
      | some q =>
        apply ih q hq
        rcases tree.mem_ancestors_iff.mp inside with rfl | ⟨q', hq', inside⟩
        · rw [whole.resolve_left ordinary] at hq
          cases hq
        · rw [hq] at hq'
          cases hq'
          exact inside
    rw [tree.enclosingFunction?_eq, tree.findSome?_ancestors]
    cases at_n : f.at? n with
    | none =>
      have ordinary : t.kind n ≠ .function := by
        intro function
        have opens : t.opens root n = true := opens_iff.mpr ⟨inside, .inr (by rw [function]; rfl)⟩
        rw [h.at_eq_none_iff.mp at_n] at opens
        cases opens
      rw [if_neg (mt isFunction_iff.mp ordinary), Option.none_or]
      exact above ordinary
    | some s =>
      rw [Option.some_or, Option.bind_some, ScopeForest.closestFunction?_eq h.coherent.outward]
      by_cases function : t.kind n = .function
      · rw [if_pos ((h.isFunctionScope_iff at_n).mpr function), if_pos (isFunction_iff.mpr function),
          Option.map_some, h.root_eq at_n]
      · rw [if_neg (mt (h.isFunctionScope_iff at_n).mp function), if_neg (mt isFunction_iff.mp function),
          h.parent_eq tree at_n, ← above function, Option.map_bind]
        rfl

/-- A variable belongs to the nearest function around the construct that declares it. -/
theorem functionOf?_eq (h : t.Mirrors root f) (tree : t.IsTree)
    (whole : t.kind root = .function ∨ t.parent root = none) {v : Nat} (hv : v < f.vars.size) :
    f.functionOf? v = t.enclosingFunction? (f.scope (f.var v).scope).root := by
  have at_scope := h.at_root (h.coherent.scope_lt hv)
  rw [← h.closestFunction?_at tree whole (h.inside at_scope), tree.findSome?_ancestors, at_scope,
    Option.some_or, Option.bind_some]
  rfl

end Tree.Mirrors

namespace Program

/-- **Text and scopes agree on functions.** Once scopes have been laid over a program that is a
function or has nothing around it, the function found from the scope around a place is the nearest
one around the place in the text, and there is none if there is none there. A variable's owner is
the nearest function at or around the node of its scope. -/
theorem ownership_agrees (p p' : Program) (root : NodeId) (s : ScopeId) (tree : p.tree.IsTree)
    (plain : p.tree.PlainFunctions) (blank : p.scopes = {})
    (created : p.createScopes root = (.ok s, p'))
    (whole : p.tree.kind root = .function ∨ p.tree.parent root = none) :
    p'.tree = p.tree ∧
    (∀ n, root ∈ p.tree.ancestors n → ∃ s owner, p'.closestScope? n = some s ∧
      p'.scopes.functionScope s = .ok owner ∧
      (owner.map fun r => (p'.scopes.scope r).root) = p.tree.enclosingFunction? n) ∧
    ∀ v < p'.scopes.vars.size, p'.scopes.owner v =
      .ok (p.tree.enclosingFunction? (p'.scopes.scope (p'.scopes.var v).scope).root) := by
  obtain ⟨same, mirrors, _⟩ := mirrors_of_createScopes tree plain blank created
  refine ⟨same, ?_, ?_⟩
  · intro n inside
    obtain ⟨s, here⟩ := mirrors.exists_scope tree inside
    have agree := mirrors.closestFunction?_at tree whole inside
    rw [here, Option.bind_some] at agree
    rw [mirrors.findSome?_at tree] at here
    obtain ⟨m, nearest, at_m⟩ := Option.bind_eq_some_iff.mp here
    refine ⟨s, p'.scopes.closestFunction? s, ?_, ?_, agree⟩
    · rw [closestScope?, same, mirrors.findSome?_at tree, nearest]
      exact at_m
    · exact mirrors.coherent.settle_eq (mirrors.lt_size at_m) _
  · intro v hv
    rw [ScopeForest.owner, mirrors.functionOf?_eq tree whole hv,
      mirrors.coherent.settle_eq (mirrors.coherent.scope_lt hv)]

/-- A script that catches `e` and then declares a function with a loop. -/
def guarded : Program where
  tree := ⟨#[{ kind := .block, parent := some 15 }, { kind := .name "e", parent := some 14 },
    { kind := .name "f", parent := some 12 }, { kind := .name "x", parent := some 4 },
    { kind := .paramList, children := [3], parent := some 12 },
    { kind := .name "i", parent := some 6 },
    { kind := .letDecl, children := [5], parent := some 10 }, { kind := .empty, parent := some 10 },
    { kind := .empty, parent := some 10 }, { kind := .block, parent := some 10 },
    { kind := .forLoop, children := [6, 7, 8, 9], parent := some 11 },
    { kind := .block, children := [10], parent := some 12 },
    { kind := .function, children := [2, 4, 11], parent := some 13 },
    { kind := .block, children := [12], parent := some 14 },
    { kind := .catchClause, children := [1, 13], parent := some 15 },
    { kind := .tryStmt, children := [0, 14], parent := some 16 },
    { kind := .script, children := [15] }]⟩

/-- The same script with its scopes. -/
def guardedScopes : Program where
  tree := guarded.tree
  scopes :=
    { scopes := #[{ kind := .global, root := 16, children := [1, 2] },
        { kind := .block, root := 0, parent := some 0 },
        { kind := .handler, root := 14, parent := some 0, children := [3], vars := ⟨[("e", 0)]⟩ },
        { kind := .block, root := 13, parent := some 2, children := [4], vars := ⟨[("f", 1)]⟩ },
        { kind := .function, root := 12, parent := some 3, children := [5], vars := ⟨[("x", 2)]⟩ },
        { kind := .body, root := 11, parent := some 4, children := [6] },
        { kind := .block, root := 10, parent := some 5, children := [7], vars := ⟨[("i", 3)]⟩ },
        { kind := .block, root := 9, parent := some 6 }]
      vars := #[{ name := "e", scope := 2, node := 1, kind := .caught },
        { name := "f", scope := 3, node := 2, kind := .function },
        { name := "x", scope := 4, node := 3, kind := .param },
        { name := "i", scope := 6, node := 5, kind := .mutable }]
      roots := ⟨[(16, 0), (0, 1), (14, 2), (13, 3), (12, 4), (11, 5), (10, 6), (9, 7)]⟩ }

/-- The loop and its variable belong to the function, and what is caught belongs to none. -/
theorem ownership_agrees_guarded :
    guarded.createScopes 16 = (.ok 0, guardedScopes) ∧
    (∃ s r, guardedScopes.closestScope? 6 = some s ∧
      guardedScopes.scopes.functionScope s = .ok (some r) ∧
      (guardedScopes.scopes.scope r).root = 12) ∧
    (∃ s, guardedScopes.closestScope? 1 = some s ∧
      guardedScopes.scopes.functionScope s = .ok none) ∧
    guardedScopes.scopes.owner 3 = .ok (some 12) ∧ guardedScopes.scopes.owner 0 = .ok none := by
  have created : guarded.createScopes 16 = (.ok 0, guardedScopes) := by decide +kernel
  obtain ⟨_, places, owners⟩ := ownership_agrees guarded guardedScopes 16 0
    (Tree.isTree_of_lt (by decide) (by decide) (by decide)) (by decide) rfl created (.inr rfl)
  obtain ⟨s, _, here, found, function⟩ := places 6 (by decide)
  obtain ⟨r, rfl, root⟩ :=
    Option.map_eq_some_iff.mp (function.trans (show _ = some (12 : NodeId) from rfl))
  obtain ⟨s', _, here', found', none⟩ := places 1 (by decide)
  obtain rfl := Option.map_eq_none_iff.mp (none.trans (show _ = Option.none from rfl))
  exact ⟨created, ⟨s, r, here, found, root⟩, ⟨s', here', found'⟩, owners 3 (by decide),
    owners 0 (by decide)⟩

end Program
end Liveness
