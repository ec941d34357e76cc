import Liveness.Scope.Create
import Liveness.Proofs.Tree.Acyclic

/-! Declarations and scopes in acyclic trees.

What is declared below a node, and which scopes are opened there, is made from what is
below it and nothing else, so in an acyclic tree both unfold one level at a time. -/
namespace Liveness

theorem Bind.each_congr {f g : NodeId → ScopeId → Bind Unit} {ns : List NodeId} (s : ScopeId)
    (h : ∀ n ∈ ns, f n = g n) : Bind.each f s ns = Bind.each g s ns := by
  induction ns with
  | nil => rfl
  | cons n ns ih => rw [each, each, h n (by simp), ih fun m hm => h m (by simp [hm])]

namespace Tree
variable {t : Tree}

theorem local_varDeclsStep (t : Tree) : t.Local t.varDeclsStep := fun n f g h => by
  have inner := flatMap_congr fun c hc => h c (.child hc)
  simp only [varDeclsStep, inner]

/-- The `var` declarations of a node are itself, if it is one, and then those of its
children, unless it is a function. -/
theorem varDecls_eq (acyclic : t.Acyclic) (n : NodeId) :
    t.varDecls n = t.varDeclsStep t.varDecls n :=
  descend_eq acyclic t.local_varDeclsStep _ n

theorem bindChildren_congr {f g : NodeId → ScopeId → Bind Unit} {n : NodeId}
    (h : ∀ c ∈ t.children n, f c = g c) : t.bindChildren f n = t.bindChildren g n :=
  funext fun s => Bind.each_congr s h

theorem bindFunction_congr {f g : NodeId → ScopeId → Bind Unit} {n : NodeId}
    (h : ∀ m, t.Below n m → f m = g m) : t.bindFunction f n = t.bindFunction g n := by
  funext parent
  unfold bindFunction
  cases t.functionParams? n with
  | none => simp only
  | some params =>
    cases hb : t.functionBody? n with
    | none => simp only
    | some body =>
      have mem : body ∈ t.children n := List.mem_of_getElem? hb
      simp only [bindChildren_congr fun c hc => h c (.deeper mem (.child hc))]

theorem local_bindStep (t : Tree) : t.Local t.bindStep := by
  intro n f g h
  have inner := bindChildren_congr fun c hc => h c (.child hc)
  funext s
  simp only [bindStep, inner, bindFunction_congr h]

/-- The scopes at and below a node are made of those at and below the nodes in it. -/
theorem bind_eq (acyclic : t.Acyclic) (n : NodeId) : t.bind n = t.bindStep t.bind n :=
  descend_eq acyclic t.local_bindStep _ n

end Tree
end Liveness
