import Liveness.Proofs.Scope.Chain
import Liveness.Proofs.Except
import Liveness.Proofs.Table

/-! Growing a forest of scopes.

A forest changes in two ways only: a scope is opened inside one that is there, or a variable is
added to one that is there. Both keep the two directions of every link in agreement: a scope
lists the scopes that take it for the one around them, and its table holds the variables that
take it for theirs, a name once. From this agreement, `Coherent`, follows what the searches
need: numbers fall outward and rise inward, and a name has a variable in a scope if and only if
some variable says so. -/
namespace Liveness

namespace ScopeForest
variable {f : ScopeForest}

/-! ### Opening a scope -/

section openScope
variable {kind : ScopeKind} {root : NodeId} {parent : Option ScopeId}

/-- The scope to open below is there, if there is to be one. -/
def Has (f : ScopeForest) (parent : Option ScopeId) : Prop := ∀ p ∈ parent, p < f.scopes.size

theorem size_openScope : (f.openScope kind root parent).2.scopes.size = f.scopes.size + 1 := by
  cases parent <;> simp [openScope, addScope, link]

theorem vars_openScope : (f.openScope kind root parent).2.vars = f.vars := by
  cases parent <;> rfl

theorem at?_openScope (n : NodeId) :
    (f.openScope kind root parent).2.at? n =
      if n = root then some f.scopes.size else f.at? n := by
  have same : ((f.addScope kind root parent).link f.scopes.size parent).roots = f.roots := by
    cases parent <;> rfl
  show Table.find? (Table.insert _ root f.scopes.size) n = _
  rw [Table.find?_insert, same]
  simp only [beq_iff_eq]
  rfl

/-- The new scope comes last, and the one around it lists it. -/
theorem scope_openScope (has : f.Has parent) (r : Nat) :
    (f.openScope kind root parent).2.scope r =
      if r = f.scopes.size then { kind, root, parent }
      else if parent = some r then
        { f.scope r with children := (f.scope r).children ++ [f.scopes.size] }
      else f.scope r := by
  cases parent with
  | none =>
    simp only [openScope, addScope, link, scope, scope?, Array.getElem?_push]
    split <;> simp
  | some p =>
    have hp : p < f.scopes.size := has p rfl
    simp only [openScope, addScope, link, scope, scope?, Array.getElem?_modify,
      Array.getElem?_push, Option.some.injEq]
    by_cases last : r = f.scopes.size
    · subst last
      simp [Nat.ne_of_lt hp]
    · by_cases around : p = r
      · subst around
        simp [last, Array.getElem?_eq_getElem hp]
      · simp [last, around]

theorem kind_openScope (has : f.Has parent) (r : Nat) :
    ((f.openScope kind root parent).2.scope r).kind =
      if r = f.scopes.size then kind else (f.scope r).kind := by
  rw [scope_openScope has]
  split
  · rfl
  · split <;> rfl

theorem root_openScope (has : f.Has parent) (r : Nat) :
    ((f.openScope kind root parent).2.scope r).root =
      if r = f.scopes.size then root else (f.scope r).root := by
  rw [scope_openScope has]
  split
  · rfl
  · split <;> rfl

theorem parent_openScope (has : f.Has parent) (r : Nat) :
    ((f.openScope kind root parent).2.scope r).parent =
      if r = f.scopes.size then parent else (f.scope r).parent := by
  rw [scope_openScope has]
  split
  · rfl
  · split <;> rfl

theorem mem_children_openScope (has : f.Has parent) (r c : Nat) :
    c ∈ ((f.openScope kind root parent).2.scope r).children ↔
      c ∈ (f.scope r).children ∨ parent = some r ∧ c = f.scopes.size := by
  rw [scope_openScope has]
  by_cases last : r = f.scopes.size
  · have none : (f.scope r).children = [] := by rw [scope_of_size_le (Nat.le_of_eq last.symm)]
    have other : parent ≠ some r := fun h => Nat.lt_irrefl _ (last ▸ has r h)
    rw [if_pos last, none]
    simp [other]
  · by_cases around : parent = some r <;> simp [last, around]

/-- No table changes; that of the new scope is empty. -/
theorem table_openScope (has : f.Has parent) (r : Nat) :
    ((f.openScope kind root parent).2.scope r).vars = (f.scope r).vars := by
  rw [scope_openScope has]
  split
  · next last => rw [scope_of_size_le (Nat.le_of_eq last.symm)]
  · split <;> rfl

end openScope

/-! ### Adding a variable -/

section addVar
variable {s : ScopeId} {name : String} {node : NodeId} {kind : VarKind}

theorem size_addVar : (f.addVar s name node kind).2.scopes.size = f.scopes.size := by
  simp [addVar]

theorem table_addVar (hs : s < f.scopes.size) (r : Nat) :
    ((f.addVar s name node kind).2.scope r).vars =
      if r = s then (f.scope r).vars.push name f.vars.size else (f.scope r).vars := by
  simp only [addVar, scope, scope?, Array.getElem?_modify]
  by_cases here : s = r
  · subst here
    simp [Array.getElem?_eq_getElem hs]
  · simp [here, Ne.symm here]

theorem var_addVar (w : Nat) :
    (f.addVar s name node kind).2.var w =
      if w = f.vars.size then { name, scope := s, node, kind } else f.var w := by
  simp only [addVar, var, var?, Array.getElem?_push]
  split <;> simp

/-- Nothing of a scope changes but its table. -/
theorem scope_addVar (r : Nat) :
    (f.addVar s name node kind).2.scope r =
      { f.scope r with vars := ((f.addVar s name node kind).2.scope r).vars } := by
  simp only [addVar, scope, scope?, Array.getElem?_modify]
  split
  · cases f.scopes[r]? <;> rfl
  · rfl

end addVar

/-- Only a scope that is there has one around it. -/
theorem lt_size_of_parent {s p : Nat} (h : (f.scope s).parent = some p) : s < f.scopes.size := by
  rcases Nat.lt_or_ge s f.scopes.size with lt | le
  · exact lt
  · rw [scope_of_size_le le] at h
    cases h

/-- To show something of every scope, show it of a scope whose inner scopes have it. -/
theorem Inward.induct (inw : f.Inward) {P : Nat → Prop}
    (step : ∀ s, (∀ c ∈ (f.scope s).children, P c) → P s) (s : Nat) : P s := by
  induction room : f.scopes.size - s using Nat.strongRecOn generalizing s with
  | _ k ih =>
    refine step s fun c hc => ih (f.scopes.size - c) ?_ c rfl
    have := inw s c hc
    omega

/-! ### Agreement -/

/-- Links between scopes, and between scopes and variables, agree in both directions. -/
structure Coherent (f : ScopeForest) : Prop where
  outward : f.Outward
  mem_children : ∀ s c : Nat,
    c ∈ (f.scope s).children ↔ c < f.scopes.size ∧ (f.scope c).parent = some s
  mem_table : ∀ (s : Nat) (name : String) (v : Nat), (name, v) ∈ (f.scope s).vars.entries ↔
    v < f.vars.size ∧ (f.var v).scope = s ∧ (f.var v).name = name
  once : ∀ s : Nat, (f.scope s).vars.keys.Nodup

namespace Coherent

theorem inward (h : f.Coherent) : f.Inward := by
  intro s c hc
  obtain ⟨lt, around⟩ := (h.mem_children s c).mp hc
  exact ⟨h.outward c s around, lt⟩

theorem ownVar?_eq_some_iff (h : f.Coherent) {s v : Nat} {name : String} :
    f.ownVar? s name = some v ↔
      v < f.vars.size ∧ (f.var v).scope = s ∧ (f.var v).name = name := by
  rw [ownVar?, Table.find?_eq_some_iff (h.once s), h.mem_table]

theorem mem_varsOf_iff (h : f.Coherent) {s v : Nat} :
    v ∈ f.varsOf s ↔ v < f.vars.size ∧ (f.var v).scope = s := by
  rw [varsOf, Table.values, List.mem_map]
  constructor
  · rintro ⟨⟨name, w⟩, hw, rfl⟩
    obtain ⟨lt, here, _⟩ := (h.mem_table s name w).mp hw
    exact ⟨lt, here⟩
  · intro ⟨lt, here⟩
    exact ⟨((f.var v).name, v), (h.mem_table s _ v).mpr ⟨lt, here, rfl⟩, rfl⟩

/-- The scope of a variable is there. -/
theorem scope_lt (h : f.Coherent) {v : Nat} (hv : v < f.vars.size) :
    (f.var v).scope < f.scopes.size := by
  rcases Nat.lt_or_ge (f.var v).scope f.scopes.size with lt | le
  · exact lt
  · have listed := (h.mem_table _ _ v).mpr ⟨hv, rfl, rfl⟩
    rw [scope_of_size_le le] at listed
    cases listed

theorem empty : ({} : ScopeForest).Coherent where
  outward s p hp := by simp [scope, scope?] at hp
  mem_children s c := by simp [scope, scope?]
  mem_table s name v := by simp [scope, scope?, Table.empty]
  once s := by simp [scope, scope?, Table.keys, Table.empty]

theorem openScope (h : f.Coherent) {kind : ScopeKind} {root : NodeId} {parent : Option ScopeId}
    (has : f.Has parent) : (f.openScope kind root parent).2.Coherent where
  outward s p hp := by
    rw [parent_openScope has] at hp
    split at hp
    · next last => exact last ▸ has p hp
    · exact h.outward s p hp
  mem_children s c := by
    rw [mem_children_openScope has, h.mem_children, size_openScope, parent_openScope has]
    by_cases last : c = f.scopes.size
    · simp [last]
    · have : c < f.scopes.size ↔ c < f.scopes.size + 1 := by omega
      simp [last, this]
  mem_table s name v := by
    rw [table_openScope has, h.mem_table, vars_openScope, var, var, var?, var?, vars_openScope]
  once s := by
    rw [table_openScope has]
    exact h.once s

theorem addVar (h : f.Coherent) {s : Nat} {name : String} {node : NodeId} {kind : VarKind}
    (hs : s < f.scopes.size) (new : f.ownVar? s name = none) :
    (f.addVar s name node kind).2.Coherent where
  outward r p hp := by
    rw [scope_addVar] at hp
    exact h.outward r p hp
  mem_children r c := by
    rw [scope_addVar, scope_addVar c, size_addVar]
    exact h.mem_children r c
  mem_table r x v := by
    have size : (f.addVar s name node kind).2.vars.size = f.vars.size + 1 := by
      simp [ScopeForest.addVar]
    rw [table_addVar hs, var_addVar, size]
    by_cases last : v = f.vars.size
    · have absent : (x, v) ∉ (f.scope r).vars.entries := by
        rw [h.mem_table]
        omega
      subst last
      by_cases here : r = s
      · subst here
        simp [absent, eq_comm]
      · simp [absent, here, Ne.symm here]
    · have : v < f.vars.size ↔ v < f.vars.size + 1 := by omega
      rw [if_neg last, ← this, ← h.mem_table]
      split <;> simp [last]
  once r := by
    rw [table_addVar hs]
    split
    · next here =>
      subst here
      have absent := Table.find?_eq_none_iff.mp new
      rw [Table.keys_push, List.nodup_append]
      refine ⟨h.once r, by simp, ?_⟩
      rintro x hx y hy rfl
      exact absent (List.mem_singleton.mp hy ▸ hx)
    · exact h.once r

end Coherent

/-! ### Declaring names -/

/-- Everything but the variables of a scope is as it was. -/
structure Keeps (s : ScopeId) (f f' : ScopeForest) : Prop where
  size : f'.scopes.size = f.scopes.size
  roots : f'.roots = f.roots
  frame : ∀ r, f'.scope r = { f.scope r with vars := (f'.scope r).vars }
  others : ∀ r, r ≠ s → (f'.scope r).vars = (f.scope r).vars

namespace Keeps
variable {s : ScopeId} {f' f'' : ScopeForest}

theorem refl (s : ScopeId) (f : ScopeForest) : Keeps s f f := ⟨rfl, rfl, fun _ => rfl, fun _ _ => rfl⟩

theorem trans (h : Keeps s f f') (h' : Keeps s f' f'') : Keeps s f f'' where
  size := h'.size.trans h.size
  roots := h'.roots.trans h.roots
  frame r := by
    have inner := h'.frame r
    rw [h.frame r] at inner
    exact inner
  others r other := (h'.others r other).trans (h.others r other)

end Keeps

/-- A declaration that succeeds adds its name to the table, unless it is there. -/
theorem Coherent.declare {s v : Nat} {name : String} {node : NodeId} {kind : VarKind}
    {f' : ScopeForest} (h : f.Coherent) (hs : s < f.scopes.size)
    (done : f.declare s name node kind = .ok (v, f')) :
    f'.Coherent ∧ Keeps s f f' ∧ (f'.scope s).vars.keys =
      if name ∈ (f.scope s).vars.keys then (f.scope s).vars.keys
      else (f.scope s).vars.keys ++ [name] := by
  unfold ScopeForest.declare at done
  cases own : f.ownVar? s name with
  | some w =>
    have known : name ∈ (f.scope s).vars.keys := Decidable.byContradiction fun absent => by
      rw [ownVar?, Table.find?_eq_none_iff.mpr absent] at own
      cases own
    rw [own] at done
    dsimp only at done
    split at done
    · cases done
    · cases done
      exact ⟨h, .refl s f, (if_pos known).symm⟩
  | none =>
    have absent := Table.find?_eq_none_iff.mp own
    rw [own] at done
    obtain rfl : (f.addVar s name node kind).2 = f' := congrArg Prod.snd (Except.ok.inj done)
    refine ⟨h.addVar hs own, ⟨size_addVar, rfl, scope_addVar, fun r other => ?_⟩, ?_⟩
    · rw [table_addVar hs, if_neg other]
    · rw [table_addVar hs, if_pos rfl, Table.keys_push, if_neg absent]

end ScopeForest
end Liveness
