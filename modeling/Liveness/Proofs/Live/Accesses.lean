import Liveness.Proofs.Live.Acyclic
import Liveness.Proofs.Except
import Liveness.Proofs.Live.Evaluation

/-! What a node lists.

How the accesses of a node are made from those below it, said once for each group of kinds
that is evaluated alike, and read backwards for each construct: if the accesses of a node
are listed, so are those of the parts it is made of, and in which order. No later proof
looks into the definitions. -/
namespace Liveness

namespace Access

theorem inOrder_cons_ok {visit : NodeId → Outcome} {n : NodeId} {ns : List NodeId}
    {accesses : List Access} (h : inOrder visit (n :: ns) = .ok accesses) :
    ∃ first rest, visit n = .ok first ∧ inOrder visit ns = .ok rest ∧ accesses = first ++ rest := by
  rw [inOrder] at h
  obtain ⟨first, hn, h⟩ := bind_eq_ok.mp h
  obtain ⟨rest, hns, h⟩ := bind_eq_ok.mp h
  exact ⟨first, rest, hn, hns, (Except.ok.inj h).symm⟩

theorem inOrder_single_ok {visit : NodeId → Outcome} {n : NodeId} {accesses : List Access}
    (h : inOrder visit [n] = .ok accesses) : visit n = .ok accesses := by
  obtain ⟨first, rest, hn, none, rfl⟩ := inOrder_cons_ok h
  obtain rfl := Except.ok.inj none
  rw [List.append_nil]
  exact hn

theorem assignment_ok {op : AssignOp} {x : String} {value : Outcome} {conditional : Bool}
    {accesses : List Access} (h : assignment op x value conditional = .ok accesses) :
    ∃ inner, value = .ok inner ∧
      accesses = (if op = .assign then [] else [.read x]) ++ inner ++ writes conditional x := by
  obtain ⟨inner, hv, h⟩ := bind_eq_ok.mp h
  exact ⟨inner, hv, (Except.ok.inj h).symm⟩

end Access

namespace Tree
open Access

/-- The name that an assignment writes. -/
def assignee? (t : Tree) (n : NodeId) : Option String :=
  match t.children n with
  | target :: _ :: _ => t.name? target
  | _ => none

variable {t : Tree} {below : NodeId → Walk} {n : NodeId} {conditional : Bool}
  {accesses : List Access}

theorem assignee?_eq_some {x : String} (h : t.assignee? n = some x) :
    ∃ target value rest, t.children n = target :: value :: rest ∧ t.name? target = some x ∧
      t.child? n 1 = some value := by
  unfold assignee? at h
  split at h
  · next target value rest hc =>
    refine ⟨target, value, rest, hc, h, ?_⟩
    rw [child?, hc]
    rfl
  · cases h

theorem assignee?_eq_none (h : t.assignee? n = none) :
    ∀ target value rest, t.children n = target :: value :: rest → t.name? target = none := by
  intro target value rest hc
  rwa [assignee?, hc] at h

theorem accessesOfChoice_ok {first rest : List NodeId}
    (h : accessesOfChoice below conditional first rest = .ok accesses) :
    ∃ before after, inOrder (below · .operand conditional) first = .ok before ∧
      inOrder (below · .operand true) rest = .ok after ∧ accesses = before ++ after := by
  obtain ⟨before, hf, h⟩ := bind_eq_ok.mp h
  obtain ⟨after, hr, h⟩ := bind_eq_ok.mp h
  exact ⟨before, after, hf, hr, (Except.ok.inj h).symm⟩

/-! ### By kind -/

theorem accessesOfOperand_silent (h : (t.kind n).isSilent = true) :
    t.accessesOfOperand below n conditional = .ok [] := by
  unfold accessesOfOperand
  split <;> simp_all [Kind.isSilent]

theorem accessesOfOperand_branch (h : (t.kind n).isBranch = true) :
    t.accessesOfOperand below n conditional =
      inOrder (below · .operand conditional) (t.condition? n).toList := by
  unfold accessesOfOperand
  split <;> simp_all [Kind.isBranch]

theorem accessesOfOperand_choice (h : t.kind n = .and ∨ t.kind n = .or) :
    t.accessesOfOperand below n conditional =
      accessesOfChoice below conditional ((t.children n).take 1) (((t.children n).drop 1).take 1) := by
  rcases h with h | h <;> simp only [accessesOfOperand, h]

theorem accessesOfOperand_conditional (h : t.kind n = .conditional) :
    t.accessesOfOperand below n conditional =
      accessesOfChoice below conditional ((t.children n).take 1) ((t.children n).drop 1) := by
  simp only [accessesOfOperand, h]

theorem accessesOfOperand_name {x : String} (h : t.kind n = .name x) :
    t.accessesOfOperand below n conditional = .ok [.use x] := by
  simp only [accessesOfOperand, h]

theorem accessesOfOperand_assign {op : AssignOp} {target value : NodeId} {x : String}
    {rest : List NodeId} (h : t.kind n = .assign op) (hc : t.children n = target :: value :: rest)
    (named : t.name? target = some x) :
    t.accessesOfOperand below n conditional =
      assignment op x (below value .operand conditional) conditional := by
  simp only [accessesOfOperand, h, hc, named]

theorem accessesOfOperand_assignTo {op : AssignOp} (h : t.kind n = .assign op)
    (unnamed : ∀ target value rest, t.children n = target :: value :: rest → t.name? target = none) :
    t.accessesOfOperand below n conditional =
      inOrder (below · .operand conditional) (t.children n) := by
  simp only [accessesOfOperand, h]
  split
  · next target value rest hc => rw [unnamed target value rest hc]
  · rfl

theorem accessesOfOperand_declaration (h : (t.kind n).isDeclaration = true) :
    t.accessesOfOperand below n conditional =
      inOrder (below · .binding conditional) (t.children n) := by
  unfold accessesOfOperand
  split <;> simp_all [Kind.isDeclaration]

theorem accessesOfOperand_iteration (h : (t.kind n).isIteration = true) :
    t.accessesOfOperand below n conditional =
      inOrder (below · .target conditional) ((t.children n).take 1) := by
  unfold accessesOfOperand
  split <;> simp_all [Kind.isIteration]

theorem accessesOfOperand_plain (h : (t.kind n).isPlain = true) :
    t.accessesOfOperand below n conditional =
      inOrder (below · .operand conditional) (t.children n) := by
  unfold accessesOfOperand
  split <;> simp_all [Kind.isPlain]

/-! ### By role -/

/-- A declared name lists what its initial value lists, and then that it is written. -/
theorem accessesOfBinding_ok (h : t.accessesOfBinding below n conditional = .ok accesses) :
    ∃ x, t.name? n = some x ∧ (t.children n = [] ∧ accesses = [] ∨
      ∃ value rest inner, t.children n = value :: rest ∧
        below value .operand conditional = .ok inner ∧ accesses = inner ++ writes conditional x) := by
  unfold accessesOfBinding at h
  split at h
  · next x named none => exact ⟨x, named, .inl ⟨none, (Except.ok.inj h).symm⟩⟩
  · next x value rest named hc =>
    refine ⟨x, named, .inr ⟨value, rest, ?_⟩⟩
    obtain ⟨inner, hv, h⟩ := bind_eq_ok.mp h
    exact ⟨inner, hc, hv, (Except.ok.inj h).symm⟩
  · cases h

theorem accessesOfSlot_named {x : String} (named : t.name? n = some x) :
    t.accessesOfSlot below n conditional = .ok [.read x, .write x] := by
  rw [accessesOfSlot, named]

theorem accessesOfSlot_unnamed (unnamed : t.name? n = none) :
    t.accessesOfSlot below n conditional = t.accessesOfOperand below n conditional := by
  rw [accessesOfSlot, unnamed]

theorem accessesOfTarget_place (place : (t.kind n).isDeclaration = false) :
    t.accessesOfTarget below n conditional = t.accessesOfSlot below n conditional := by
  rw [accessesOfTarget, if_neg (by simp [place])]

section Acyclic
variable (acyclic : t.Acyclic)
include acyclic

theorem accessesAs_operand (n : NodeId) (conditional : Bool) :
    t.accessesAs n .operand conditional = t.accessesOfOperand t.accessesAs n conditional :=
  congrFun (congrFun (accessesAs_eq acyclic n) .operand) conditional

theorem accessesAs_binding (n : NodeId) (conditional : Bool) :
    t.accessesAs n .binding conditional = t.accessesOfBinding t.accessesAs n conditional :=
  congrFun (congrFun (accessesAs_eq acyclic n) .binding) conditional

theorem accessesAs_target (n : NodeId) (conditional : Bool) :
    t.accessesAs n .target conditional = t.accessesOfTarget t.accessesAs n conditional :=
  congrFun (congrFun (accessesAs_eq acyclic n) .target) conditional

theorem accessesAs_slot (n : NodeId) (conditional : Bool) :
    t.accessesAs n .slot conditional = t.accessesOfSlot t.accessesAs n conditional :=
  congrFun (congrFun (accessesAs_eq acyclic n) .slot) conditional

/-- A slot lists its name as read and written, and any other node lists what it lists as an
operand. -/
theorem slot_ok (h : t.accessesAs n .slot conditional = .ok accesses) :
    (∃ x, t.name? n = some x ∧ accesses = [.read x, .write x]) ∨
      t.name? n = none ∧ t.accessesAs n .operand conditional = .ok accesses := by
  rw [accessesAs_slot acyclic] at h
  cases named : t.name? n with
  | some x =>
    rw [accessesOfSlot_named named] at h
    exact .inl ⟨x, rfl, (Except.ok.inj h).symm⟩
  | none =>
    rw [accessesOfSlot_unnamed named, ← accessesAs_operand acyclic] at h
    exact .inr ⟨rfl, h⟩

theorem binding_ok (h : t.accessesAs n .binding conditional = .ok accesses) :
    ∃ x, t.name? n = some x ∧ (t.children n = [] ∧ accesses = [] ∨
      ∃ value rest inner, t.children n = value :: rest ∧
        t.accessesAs value .operand conditional = .ok inner ∧
        accesses = inner ++ writes conditional x) := by
  rw [accessesAs_binding acyclic] at h
  exact accessesOfBinding_ok h

/-- A target lists what its slot lists. -/
theorem target_ok (h : t.accessesAs n .target conditional = .ok accesses) :
    ∃ slot, (if (t.kind n).isDeclaration then (t.children n).getLast? else some n) = some slot ∧
      t.accessesAs slot .slot conditional = .ok accesses := by
  rw [accessesAs_target acyclic, accessesOfTarget] at h
  split at h
  · next declaration =>
    rw [if_pos declaration]
    split at h
    · next slot last => exact ⟨slot, last, h⟩
    · cases h
  · next ordinary =>
    rw [if_neg ordinary]
    exact ⟨n, rfl, by rw [accessesAs_slot acyclic]; exact h⟩

/-! ### By construct -/

/-- What an iteration fills it lists as read and written if it is a name, and otherwise as an
operand. -/
theorem iteration_slot_ok (iteration : (t.kind n).isIteration = true)
    (h : t.accessesAs n .operand conditional = .ok accesses) :
    t.children n = [] ∧ accesses = [] ∨ ∃ slot, t.slot? n = some slot ∧
      ((∃ x, t.name? slot = some x ∧ accesses = [.read x, .write x]) ∨
        t.name? slot = none ∧ t.accessesAs slot .operand conditional = .ok accesses) := by
  rw [accessesAs_operand acyclic, accessesOfOperand_iteration iteration] at h
  cases hc : t.children n with
  | nil =>
    rw [hc] at h
    exact .inl ⟨rfl, (Except.ok.inj h).symm⟩
  | cons target rest =>
    rw [hc] at h
    obtain ⟨slot, hs, h⟩ := target_ok acyclic (inOrder_single_ok h)
    exact .inr ⟨slot, by rw [slot?, hc]; exact hs, slot_ok acyclic h⟩

/-- An iteration lists its slot as read and written if that is a name, and otherwise what its
target lists as an operand. -/
theorem iteration_ok (laidOut : t.LaidOut) (iteration : (t.kind n).isIteration = true)
    (h : t.accessesAs n .operand conditional = .ok accesses) :
    ∃ slot, t.slot? n = some slot ∧
      ((∃ x, t.name? slot = some x ∧ accesses = [.read x, .write x]) ∨
        t.name? slot = none ∧ slot ∈ t.children n ∧ (t.kind slot).isOperand = true ∧
          t.accessesAs slot .operand conditional = .ok accesses) := by
  rcases iteration_slot_ok acyclic iteration h with ⟨none, _⟩ | ⟨slot, hs, named | ⟨unnamed, h⟩⟩
  · obtain ⟨target, value, body, hc, _⟩ := laidOut.iteration_children iteration
    rw [none] at hc
    cases hc
  · exact ⟨slot, hs, .inl named⟩
  · obtain ⟨mem, operand⟩ := laidOut.unnamed_slot iteration hs unnamed
    exact ⟨slot, hs, .inr ⟨unnamed, mem, operand, h⟩⟩

/-- The right operand is listed as one that may not be evaluated. -/
theorem choice_ok {left right : NodeId} (choice : t.kind n = .and ∨ t.kind n = .or)
    (hc : t.children n = [left, right])
    (h : t.accessesAs n .operand conditional = .ok accesses) :
    ∃ before after, t.accessesAs left .operand conditional = .ok before ∧
      t.accessesAs right .operand true = .ok after ∧ accesses = before ++ after := by
  rw [accessesAs_operand acyclic, accessesOfOperand_choice choice, hc] at h
  obtain ⟨before, after, hl, hr, rfl⟩ := accessesOfChoice_ok h
  exact ⟨before, after, inOrder_single_ok hl, inOrder_single_ok hr, rfl⟩

/-- Both branches are listed as what may not be evaluated. -/
theorem conditional_ok {condition yes no : NodeId} (hook : t.kind n = .conditional)
    (hc : t.children n = [condition, yes, no])
    (h : t.accessesAs n .operand conditional = .ok accesses) :
    ∃ first second third, t.accessesAs condition .operand conditional = .ok first ∧
      t.accessesAs yes .operand true = .ok second ∧ t.accessesAs no .operand true = .ok third ∧
      accesses = first ++ (second ++ third) := by
  rw [accessesAs_operand acyclic, accessesOfOperand_conditional hook, hc] at h
  obtain ⟨first, _, hf, hr, rfl⟩ := accessesOfChoice_ok h
  obtain ⟨second, third, hy, hn, rfl⟩ := inOrder_cons_ok hr
  exact ⟨first, second, third, inOrder_single_ok hf, hy, inOrder_single_ok hn, rfl⟩

end Acyclic
end Tree
end Liveness
