import Liveness.Proofs.Scope.Arena
import Liveness.Proofs.Scope.Resolution
import Liveness.Proofs.Tree.Layout

/-! Laying scopes only adds.

A program can have scopes laid over it again, or over a part of it, or over something that shares
nodes with it, and each time the work may stop half way. Nothing that was there before is touched:
scopes are opened inside new scopes only and variables go into new scopes only (`Grown`), so an old
scope neither gets a child nor a variable. The one thing that moves is the way from a node to its
scope, and only for nodes at and below the root (`Grown.at?_eq`). The root itself is entered once,
first of all, so it leads to the scope that is returned. -/
namespace Liveness

namespace ScopeForest
variable {f : ScopeForest}

theorem scope?_openScope {kind : ScopeKind} {root : NodeId} {parent : Option ScopeId} {r : Nat}
    (old : r < f.scopes.size) (apart : parent ≠ some r) :
    (f.openScope kind root parent).2.scope? r = f.scope? r := by
  cases parent with
  | none => simp [openScope, addScope, link, scope?, Array.getElem?_push, Nat.ne_of_lt old]
  | some p =>
    have other : p ≠ r := fun same => apart (congrArg some same)
    simp [openScope, addScope, link, scope?, Array.getElem?_modify, Array.getElem?_push, other,
      Nat.ne_of_lt old]

theorem scope?_addVar {s : ScopeId} {name : String} {node : NodeId} {kind : VarKind} {r : Nat}
    (apart : r ≠ s) : (f.addVar s name node kind).2.scope? r = f.scope? r := by
  simp [addVar, scope?, Array.getElem?_modify, Ne.symm apart]

theorem var?_openScope {kind : ScopeKind} {root : NodeId} {parent : Option ScopeId} (v : Nat) :
    (f.openScope kind root parent).2.var? v = f.var? v := by
  rw [var?, vars_openScope, var?]

theorem var?_addVar {s : ScopeId} {name : String} {node : NodeId} {kind : VarKind} {v : Nat}
    (old : v < f.vars.size) : (f.addVar s name node kind).2.var? v = f.var? v := by
  simp [addVar, var?, Array.getElem?_push, Nat.ne_of_lt old]

theorem lt_size_of_scope? {s : Nat} {scope : Scope} (h : f.scope? s = some scope) :
    s < f.scopes.size :=
  (Array.getElem?_eq_some_iff.mp h).1

theorem scope?_eq_scope {s : Nat} (h : s < f.scopes.size) : f.scope? s = some (f.scope s) := by
  simp [scope, scope?, h]

theorem lt_size_of_var? {v : Nat} {x : Variable} (h : f.var? v = some x) : v < f.vars.size :=
  (Array.getElem?_eq_some_iff.mp h).1

namespace Grown
variable {low : Nat} {part : NodeId → Prop} {base : ScopeForest}

/-- What was there is there still, as it was. -/
theorem scope?_eq (h : Grown base.scopes.size part base f) {s : Nat} (old : s < base.scopes.size) :
    f.scope? s = base.scope? s := by
  induction h with
  | same => rfl
  | openScope grown _ new _ ih =>
    refine (scope?_openScope (Nat.lt_of_lt_of_le old grown.size_le) fun around => ?_).trans ih
    exact absurd old (Nat.not_lt.mpr (new s around))
  | addVar _ new _ _ ih =>
    refine (scope?_addVar fun same => ?_).trans ih
    exact absurd old (Nat.not_lt.mpr (same ▸ new))

theorem vars_size_le (h : Grown low part base f) : base.vars.size ≤ f.vars.size := by
  induction h with
  | same => exact Nat.le_refl _
  | openScope _ _ _ _ ih =>
    rw [vars_openScope]
    exact ih
  | addVar _ _ _ _ ih =>
    simp only [ScopeForest.addVar, Array.size_push]
    omega

theorem var?_eq (h : Grown low part base f) {v : Nat} (old : v < base.vars.size) :
    f.var? v = base.var? v := by
  induction h with
  | same => rfl
  | openScope _ _ _ _ ih => exact (var?_openScope v).trans ih
  | addVar grown _ _ _ ih =>
    exact (var?_addVar (Nat.lt_of_lt_of_le old grown.vars_size_le)).trans ih

/-- A node where no scope was opened leads where it led. -/
theorem at?_eq (h : Grown low part base f) {n : NodeId} (outside : ¬ part n) :
    f.at? n = base.at? n := by
  induction h with
  | same => rfl
  | @openScope _ _ root _ _ here _ _ ih =>
    have other : n ≠ root := fun same => outside (same ▸ here)
    rw [at?_openScope, if_neg other, ih]
  | addVar _ _ _ _ ih => exact ih

/-- A node that leads elsewhere than before leads to a new scope. -/
theorem at?_eq_or_new (h : Grown low part base f) (n : NodeId) :
    f.at? n = base.at? n ∨ ∃ s, f.at? n = some s ∧ base.scopes.size ≤ s := by
  induction h with
  | same => exact .inl rfl
  | @openScope f kind root parent grown _ _ _ ih =>
    rw [at?_openScope]
    split
    · exact .inr ⟨f.scopes.size, rfl, grown.size_le⟩
    · exact ih
  | addVar _ _ _ _ ih => exact ih

/-- The first new scope has none around it, since an old one is not opened in. -/
theorem parent_first (h : Grown base.scopes.size part base f)
    (more : base.scopes.size < f.scopes.size) : (f.scope base.scopes.size).parent = none := by
  induction h with
  | same => exact absurd more (Nat.lt_irrefl _)
  | @openScope f kind root parent grown _ new has ih =>
    rw [parent_openScope has]
    split
    · next first =>
      cases parent with
      | none => rfl
      | some p => exact absurd (has p rfl) (Nat.not_lt.mpr (first ▸ new p rfl))
    · next later => exact ih (Nat.lt_of_le_of_ne grown.size_le later)
  | addVar _ _ _ _ ih =>
    rw [size_addVar] at more
    rw [scope_addVar]
    exact ih more

end Grown
end ScopeForest

/-! ### Where the root leads -/

namespace Bind
open ScopeForest
variable {part : NodeId → Prop} {f f' : ScopeForest}

theorem Grows.of_gives {m : Bind α} {inside : Option ScopeId} {a : α} (h : m.Grows inside part)
    (has : f.Has inside) (run : m.Gives f a f') : Grown 0 part f f' := by
  have grown := h (Nat.zero_le _) (fun s _ => Nat.zero_le s) has
  rwa [show m.run f = (.ok a, f') from run] at grown

/-- Entering a node leads it to the scope that is returned, if nothing inside opens another one
there. -/
theorem at_of_enter {kind : ScopeKind} {root : NodeId} {parent : Option ScopeId}
    {decls : List (Except BindError Decl)} {inside : ScopeId → Bind Unit}
    (inner : ∀ s, (inside s).Grows (some s) part) (apart : ¬ part root) {s : ScopeId}
    (run : (enter kind root parent decls inside).Gives f s f') :
    s = f.scopes.size ∧ s < f'.scopes.size ∧ f'.at? root = some s := by
  obtain ⟨r, g, opened, run⟩ := gives_bind.mp run
  obtain ⟨_, g', declared, run⟩ := gives_bind.mp run
  obtain ⟨_, g'', inside', run⟩ := gives_bind.mp run
  obtain ⟨rfl, rfl⟩ := gives_pure.mp run
  obtain ⟨same, rfl⟩ := Prod.ext_iff.mp (gives_openScope.mp opened)
  obtain rfl : f.scopes.size = r := same
  have new : f.scopes.size < (f.openScope kind root parent).2.scopes.size :=
    Nat.lt_of_lt_of_eq (Nat.lt_succ_self _) size_openScope.symm
  have has : (f.openScope kind root parent).2.Has (some f.scopes.size) :=
    fun s hs => Option.some.inj hs ▸ new
  have named := (grows_declareAll _ decls part).of_gives has declared
  have filled := (inner _).of_gives (named.has has) inside'
  refine ⟨rfl, Nat.lt_of_lt_of_le new (Nat.le_trans named.size_le filled.size_le), ?_⟩
  rw [filled.at?_eq apart, named.at?_eq apart, at?_openScope, if_pos rfl]

end Bind

namespace Tree
variable {t : Tree}

/-- The root of a program leads to the scope that is returned, which is the first one opened. -/
theorem at_of_bindProgram {root : NodeId} (acyclic : ¬ t.Below root root) {f f' : ScopeForest}
    {s : ScopeId} (run : (t.bindProgram root).Gives f s f') :
    s = f.scopes.size ∧ s < f'.scopes.size ∧ f'.at? root = some s := by
  unfold bindProgram at run
  split at run
  · exact Bind.at_of_enter (grows_children t.grows_bind root) acyclic run
  · unfold bindFunction at run
    split at run
    · next hb => exact Bind.at_of_enter (grows_body t.grows_bind hb) acyclic run
    · exact absurd run Bind.not_gives_throw
  · exact absurd run Bind.not_gives_throw

end Tree

namespace Program

/-- **Laying scopes only adds.** Whatever scopes a program has, and whether or not laying scopes
over what is at and below `root` succeeds: each scope and each variable that was there is there
afterwards, with everything in it as it was, and so is every node. A node that leads to another
scope than before is at or below the root, and leads to a new scope. If the work succeeds, the scope
returned is new, no scope is around it, and the root leads to it. -/
theorem createScopes_adds (p p' : Program) (root : NodeId) (result : Except BindError ScopeId)
    (acyclic : ¬ p.tree.Below root root) (created : p.createScopes root = (result, p')) :
    (∀ s scope, p.scopes.scope? s = some scope → p'.scopes.scope? s = some scope) ∧
    (∀ v x, p.scopes.var? v = some x → p'.scopes.var? v = some x) ∧
    p'.tree = p.tree ∧ p'.normalized = p.normalized ∧
    (∀ n, p'.scopes.at? n ≠ p.scopes.at? n → (n = root ∨ p.tree.Below root n) ∧
      ∃ s, p'.scopes.at? n = some s ∧ p.scopes.scope? s = none) ∧
    ∀ s, result = .ok s → p.scopes.scope? s = none ∧ p'.scopes.at? root = some s ∧
      ∃ scope, p'.scopes.scope? s = some scope ∧ scope.parent = none := by
  obtain ⟨rfl, rfl⟩ := Prod.ext_iff.mp created
  have grown := p.scopes.grown_create p.tree root
  have absent {s : Nat} (new : p.scopes.scopes.size ≤ s) : p.scopes.scope? s = none :=
    Array.getElem?_eq_none new
  refine ⟨fun s scope old => ?_, fun v x old => ?_, rfl, rfl, fun n moved => ⟨?_, ?_⟩,
    fun s done => ?_⟩
  · exact (grown.scope?_eq (ScopeForest.lt_size_of_scope? old)).trans old
  · exact (grown.var?_eq (ScopeForest.lt_size_of_var? old)).trans old
  · refine Classical.byContradiction fun outside => moved ?_
    exact grown.at?_eq outside
  · rcases grown.at?_eq_or_new n with same | ⟨s, there, new⟩
    · exact absurd same moved
    · exact ⟨s, there, absent new⟩
  · have run : (p.tree.bindProgram root).Gives p.scopes s (p.scopes.create p.tree root).2 :=
      Prod.ext done rfl
    obtain ⟨rfl, lt, there⟩ := Tree.at_of_bindProgram acyclic run
    exact ⟨absent (Nat.le_refl _), there, _, ScopeForest.scope?_eq_scope lt, grown.parent_first lt⟩

/-- Laid over a program that has its scopes already, a second layer leaves the first alone; a layer
that fails at the second `let x` leaves the scopes alone that were there before. -/
theorem createScopes_adds_again :
    (∃ p', shelteredScopes.createScopes 25 = (.ok 9, p') ∧
      p'.scopes.scope? 5 = some (shelteredScopes.scopes.scope 5) ∧
      p'.scopes.var? 2 = some (shelteredScopes.scopes.var 2) ∧
      shelteredScopes.scopes.scope? 9 = none ∧
      p'.scopes.at? 25 = some 9 ∧ shelteredScopes.scopes.at? 25 = some 0) ∧
    ∃ p', retried.createScopes 7 = (.error (.duplicate "x"), p') ∧
      p'.scopes.scope? 3 = some (retried.scopes.scope 3) ∧
      p'.scopes.at? 4 = some 6 ∧ retried.scopes.at? 4 = some 4 ∧ retried.tree.Below 7 4 := by
  constructor
  · have created : shelteredScopes.createScopes 25 =
        (.ok 9, (shelteredScopes.createScopes 25).2) := by decide +kernel
    obtain ⟨scopes, vars, _, _, _, returned⟩ := createScopes_adds shelteredScopes _ 25 (.ok 9)
      (isTree_sheltered.acyclic.not_below_self 25) created
    obtain ⟨new, there, _⟩ := returned 9 rfl
    exact ⟨_, created, scopes 5 _ rfl, vars 2 _ rfl, new, there, rfl⟩
  · have acyclic : retried.tree.Acyclic := Tree.acyclic_of_lt (by decide)
    obtain ⟨scopes, _, _, _, moved, _⟩ := createScopes_adds retried _ 7 (.error (.duplicate "x"))
      (acyclic.not_below_self 7) rfl
    obtain ⟨inside, _⟩ := moved 4 (by decide)
    exact ⟨_, rfl, scopes 3 _ rfl, rfl, rfl, inside.resolve_left (by decide)⟩

end Program
end Liveness
