import Liveness.Scope.Basic

/-! Walks through nested scopes reach the end.

A scope is opened after the scope around it, so along the links outward numbers fall and
along the links inward they rise. A walk cut off at the number of scopes therefore loses
nothing, and what a name means can be read off one scope at a time: what the scope itself
declares, or else what the scope around it says. -/
namespace Liveness.ScopeForest

/-- The scope around a scope comes before it. -/
def Outward (f : ScopeForest) : Prop := ∀ s p : Nat, (f.scope s).parent = some p → p < s

/-- The scopes inside a scope come after it, and exist. -/
def Inward (f : ScopeForest) : Prop :=
  ∀ s c : Nat, c ∈ (f.scope s).children → s < c ∧ c < f.scopes.size

theorem scope_of_size_le {f : ScopeForest} {s : Nat} (h : f.scopes.size ≤ s) :
    f.scope s = { kind := .global, root := 0 } := by
  simp [scope, scope?, Array.getElem?_eq_none h]

/-! ### Outwards -/

theorem outward_succ {f : ScopeForest} (out : f.Outward) (k s : Nat) (h : s ≤ k) :
    f.outward (k + 1) s = f.outward k s := by
  induction k generalizing s with
  | zero =>
    have none : (f.scope s).parent = none := by
      cases hp : (f.scope s).parent with
      | none => rfl
      | some p => exact absurd (out s p hp) (by omega)
    simp [outward, none]
  | succ k ih =>
    rw [outward, outward]
    cases hp : (f.scope s).parent with
    | none => rfl
    | some p =>
      have := out s p hp
      exact congrArg (s :: ·) (ih p (by omega))

/-- The scopes at and around a scope are the scope and then those at and around the next. -/
theorem chain_eq {f : ScopeForest} (out : f.Outward) (s : Nat) :
    f.chain s = s :: match (f.scope s).parent with
      | some p => f.chain p
      | none => [] := by
  rcases Nat.lt_or_ge s f.scopes.size with lt | le
  · rw [chain, ← outward_succ out _ s (Nat.le_of_lt lt), outward]
    rfl
  · have none : (f.scope s).parent = none := by rw [scope_of_size_le le]
    rw [none, chain]
    cases f.scopes.size <;> simp [outward, none]

/-- A name means what the scope declares, or else what it means around the scope. -/
theorem resolve?_eq {f : ScopeForest} (out : f.Outward) (s : Nat) (name : String) :
    f.resolve? s name = (f.ownVar? s name).or
      ((f.scope s).parent.bind fun p => f.resolve? p name) := by
  rw [resolve?, chain_eq out]
  cases hp : (f.scope s).parent <;> cases ho : f.ownVar? s name <;> simp [ho, resolve?]

/-- The innermost function scope is the scope itself, or else that of the scope around it. -/
theorem closestFunction?_eq {f : ScopeForest} (out : f.Outward) (s : Nat) :
    f.closestFunction? s =
      if f.isFunctionScope s then some s else (f.scope s).parent.bind f.closestFunction? := by
  rw [closestFunction?, chain_eq out]
  cases hp : (f.scope s).parent <;> cases hs : f.isFunctionScope s <;> simp [hs, closestFunction?]

/-! ### Inwards -/

theorem inward_succ {f : ScopeForest} (inw : f.Inward) (k s : Nat)
    (h : f.scopes.size ≤ s + k) : f.inward (k + 1) s = f.inward k s := by
  induction k generalizing s with
  | zero =>
    have none : (f.scope s).children = [] := by rw [scope_of_size_le (by omega)]
    simp [inward, none]
  | succ k ih =>
    rw [inward, inward]
    congr 1
    simp only [List.flatMap]
    congr 1
    apply List.map_congr_left
    intro c hc
    have := inw s c (List.mem_filter.mp hc).1
    exact ih c (by omega)

/-- The scopes of a function at and inside a scope are the scope and then those at and
inside each scope in it that is not a function's. -/
theorem within_eq {f : ScopeForest} (inw : f.Inward) (s : Nat) :
    f.within s =
      s :: ((f.scope s).children.filter fun c => !f.isFunctionScope c).flatMap f.within := by
  rw [within, ← inward_succ inw _ s (by omega), inward]
  rfl

end Liveness.ScopeForest
