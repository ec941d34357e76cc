import Liveness.Proofs.Live.Accesses

/-! What it changes that a node may not be evaluated to its end.

The flag goes down through the whole of a node, and all it does there is leave out writes. So
of two lists made with and without it the first is the second less some writes (`Fewer`): what
is read stays, each read at its place. And a node that cannot be listed fails with the same
error either way (`Milder`). Each rule keeps this if it holds below, however deep the walk
goes, so no shape is asked of the tree. -/
namespace Liveness

namespace Access

/-- The first list is the second less some of its writes. -/
inductive Fewer : List Access → List Access → Prop
  | nil : Fewer [] []
  | keep {xs ys : List Access} (x : Access) : Fewer xs ys → Fewer (x :: xs) (x :: ys)
  | drop {xs ys : List Access} (name : String) : Fewer xs ys → Fewer xs (.write name :: ys)

theorem Fewer.refl (xs : List Access) : Fewer xs xs := by
  induction xs with
  | nil => exact .nil
  | cons x xs ih => exact ih.keep x

theorem Fewer.append {xs ys xs' ys' : List Access} (h : Fewer xs ys) (h' : Fewer xs' ys') :
    Fewer (xs ++ xs') (ys ++ ys') := by
  induction h with
  | nil => exact h'
  | keep x _ ih => exact ih.keep x
  | drop name _ ih => exact ih.drop name

theorem Fewer.sublist {xs ys : List Access} (h : Fewer xs ys) : xs.Sublist ys := by
  induction h with
  | nil => exact .slnil
  | keep x _ ih => exact ih.cons_cons x
  | drop name _ ih => exact ih.cons _

/-- What does not look at writes does not tell the lists apart. -/
theorem Fewer.filterMap_eq {α : Type} {xs ys : List Access} (h : Fewer xs ys)
    {f : Access → Option α} (blind : ∀ name, f (.write name) = none) :
    xs.filterMap f = ys.filterMap f := by
  induction h with
  | nil => rfl
  | keep x _ ih => rw [List.filterMap_cons, List.filterMap_cons, ih]
  | drop name _ ih => rw [List.filterMap_cons_none (blind name), ih]

theorem Fewer.any_eq {xs ys : List Access} (h : Fewer xs ys) {f : Access → Bool}
    (blind : ∀ name, f (.write name) = false) : xs.any f = ys.any f := by
  induction h with
  | nil => rfl
  | keep x _ ih => rw [List.any_cons, List.any_cons, ih]
  | drop name _ ih => rw [List.any_cons, blind, Bool.false_or, ih]

theorem fewer_writes (name : String) : Fewer (writes true name) (writes false name) :=
  Fewer.nil.drop name

/-- Both fail with the same error, or the first lists what the second does less some writes. -/
inductive Milder : Outcome → Outcome → Prop
  | failed (e : AnalysisError) : Milder (.error e) (.error e)
  | listed {xs ys : List Access} : Fewer xs ys → Milder (.ok xs) (.ok ys)

theorem Milder.refl (o : Outcome) : Milder o o := by
  cases o with
  | error e => exact .failed e
  | ok xs => exact .listed (.refl xs)

/-- What goes on after a step keeps the relation if it does so on the lists of that step. -/
theorem Milder.bind {o o' : Outcome} (h : Milder o o') {f f' : List Access → Outcome}
    (each : ∀ xs ys, Fewer xs ys → Milder (f xs) (f' ys)) : Milder (o >>= f) (o' >>= f') := by
  cases h with
  | failed e => exact .failed e
  | listed fewer => exact each _ _ fewer

theorem milder_inOrder {visit visit' : NodeId → Outcome} (h : ∀ n, Milder (visit n) (visit' n))
    (ns : List NodeId) : Milder (inOrder visit ns) (inOrder visit' ns) := by
  induction ns with
  | nil => exact .refl _
  | cons n ns ih =>
    exact (h n).bind fun _ _ first => ih.bind fun _ _ rest => .listed (first.append rest)

end Access

namespace Tree
open Access
variable {t : Tree} {below : NodeId → Walk}

/-! ### One node -/

section Step
variable (h : ∀ n role, Milder (below n role true) (below n role false)) (n : NodeId)
include h

theorem milder_choice (first rest : List NodeId) :
    Milder (accessesOfChoice below true first rest) (accessesOfChoice below false first rest) :=
  -- What comes second carries the flag in both.
  (milder_inOrder (fun m => h m .operand) first).bind fun _ _ before =>
    (Milder.refl _).bind fun _ _ after => .listed (before.append after)

theorem milder_operand :
    Milder (t.accessesOfOperand below n true) (t.accessesOfOperand below n false) := by
  have operands := milder_inOrder fun m => h m .operand
  rcases Kind.cases_by_rule (t.kind n) with
    silent | branch | iteration | declaration | choice | hook | ⟨x, name⟩ | ⟨op, assign⟩ | plain
  · rw [accessesOfOperand_silent silent, accessesOfOperand_silent silent]
    exact .refl _
  · rw [accessesOfOperand_branch branch, accessesOfOperand_branch branch]
    exact operands _
  · rw [accessesOfOperand_iteration iteration, accessesOfOperand_iteration iteration]
    exact milder_inOrder (fun m => h m .target) _
  · rw [accessesOfOperand_declaration declaration, accessesOfOperand_declaration declaration]
    exact milder_inOrder (fun m => h m .binding) _
  · rw [accessesOfOperand_choice choice, accessesOfOperand_choice choice]
    exact milder_choice h _ _
  · rw [accessesOfOperand_conditional hook, accessesOfOperand_conditional hook]
    exact milder_choice h _ _
  · rw [accessesOfOperand_name name, accessesOfOperand_name name]
    exact .refl _
  · cases named : t.assignee? n with
    | some x =>
      obtain ⟨target, value, rest, hc, hx, _⟩ := assignee?_eq_some named
      rw [accessesOfOperand_assign assign hc hx, accessesOfOperand_assign assign hc hx]
      exact (h value .operand).bind fun _ _ inner =>
        .listed (((Fewer.refl _).append inner).append (fewer_writes x))
    | none =>
      have unnamed := assignee?_eq_none named
      rw [accessesOfOperand_assignTo assign unnamed, accessesOfOperand_assignTo assign unnamed]
      exact operands _
  · rw [accessesOfOperand_plain plain, accessesOfOperand_plain plain]
    exact operands _

theorem milder_binding :
    Milder (t.accessesOfBinding below n true) (t.accessesOfBinding below n false) := by
  unfold accessesOfBinding
  split
  · exact .refl _
  · next name value _ _ _ =>
    exact (h value .operand).bind fun _ _ inner => .listed (inner.append (fewer_writes name))
  · exact .refl _

/-- A slot that is a name is listed as written with the flag too. -/
theorem milder_slot : Milder (t.accessesOfSlot below n true) (t.accessesOfSlot below n false) := by
  unfold accessesOfSlot
  split
  · exact .refl _
  · exact milder_operand h n

theorem milder_target :
    Milder (t.accessesOfTarget below n true) (t.accessesOfTarget below n false) := by
  unfold accessesOfTarget
  split
  · split
    · next slot _ => exact h slot .slot
    · exact .refl _
  · exact milder_slot h n

theorem milder_step (role : Role) :
    Milder (t.accessStep below n role true) (t.accessStep below n role false) := by
  cases role with
  | operand => exact milder_operand h n
  | binding => exact milder_binding h n
  | target => exact milder_target h n
  | slot => exact milder_slot h n

end Step

/-! ### Every node -/

theorem milder_descendTo (depth : Nat) (n : NodeId) (role : Role) :
    Milder (descendTo t.accessStep (fun _ _ => .ok []) depth n role true)
      (descendTo t.accessStep (fun _ _ => .ok []) depth n role false) := by
  induction depth generalizing n role with
  | zero => exact .refl _
  | succ depth ih => exact milder_step ih n role

/-- A node that may be evaluated less far lists the same, less some writes. -/
theorem milder_accesses (t : Tree) (n : NodeId) {conditional conditional' : Bool}
    (less : conditional = true → conditional' = true) :
    Milder (t.accesses n conditional') (t.accesses n conditional) := by
  cases conditional' with
  | true =>
    cases conditional with
    | true => exact .refl _
    | false => exact milder_descendTo (t.size + 1) n .operand
  | false =>
    cases conditional with
    | true => cases less rfl
    | false => exact .refl _

end Tree
end Liveness
