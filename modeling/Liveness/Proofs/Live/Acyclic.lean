import Liveness.Live.Access
import Liveness.Proofs.Tree.Acyclic

/-! Accesses in acyclic trees.

The accesses of a node are made from those of nodes below it and nothing else, so in an
acyclic tree they unfold one level at a time, with no bound in sight. -/
namespace Liveness

namespace Access

theorem inOrder_congr {f g : NodeId → Outcome} {ns : List NodeId} (h : ∀ n ∈ ns, f n = g n) :
    inOrder f ns = inOrder g ns := by
  induction ns with
  | nil => rfl
  | cons n ns ih => rw [inOrder, inOrder, h n (by simp), ih fun m hm => h m (by simp [hm])]

end Access

namespace Tree
open Access
variable {t : Tree} {n : NodeId} {f g : NodeId → Walk}

theorem mem_children_of_condition? {c : NodeId} (h : t.condition? n = some c) :
    c ∈ t.children n := by
  unfold condition? at h
  split at h
  · exact List.mem_of_head? h
  · exact List.mem_of_head? h
  · exact List.mem_of_getLast? h
  · exact List.mem_of_getElem? h
  · cases h

theorem inOrder_children (h : ∀ c ∈ t.children n, f c = g c) (role : Role) (conditional : Bool)
    {ns : List NodeId} (sub : ∀ c ∈ ns, c ∈ t.children n) :
    inOrder (f · role conditional) ns = inOrder (g · role conditional) ns :=
  inOrder_congr fun c hc => by rw [h c (sub c hc)]

theorem accessesOfOperand_congr (h : ∀ c ∈ t.children n, f c = g c) (conditional : Bool) :
    t.accessesOfOperand f n conditional = t.accessesOfOperand g n conditional := by
  have all := fun r b => inOrder_children h r b fun _ hc => hc
  have first := fun r b => inOrder_children h r b
    fun _ (hc : _ ∈ (t.children n).take 1) => List.mem_of_mem_take hc
  have rest := fun r b => inOrder_children h r b
    fun _ (hc : _ ∈ (t.children n).drop 1) => List.mem_of_mem_drop hc
  have second := fun r b => inOrder_children h r b
    fun _ (hc : _ ∈ ((t.children n).drop 1).take 1) => List.mem_of_mem_drop (List.mem_of_mem_take hc)
  have condition := fun r b => inOrder_children h r b
    fun _ (hc : _ ∈ (t.condition? n).toList) => mem_children_of_condition? (by simpa using hc)
  unfold accessesOfOperand accessesOfChoice
  simp only [all, first, rest, second, condition]
  split <;> try rfl
  split <;> try rfl
  rename_i value _ hc
  rw [h value (by simp [hc])]

theorem accessesOfBinding_congr (h : ∀ c ∈ t.children n, f c = g c) (conditional : Bool) :
    t.accessesOfBinding f n conditional = t.accessesOfBinding g n conditional := by
  unfold accessesOfBinding
  split <;> try rfl
  rename_i value _ _ hc
  rw [h value (by simp [hc])]

theorem accessesOfSlot_congr (h : ∀ c ∈ t.children n, f c = g c) (conditional : Bool) :
    t.accessesOfSlot f n conditional = t.accessesOfSlot g n conditional := by
  unfold accessesOfSlot
  rw [accessesOfOperand_congr h]

theorem accessesOfTarget_congr (h : ∀ c ∈ t.children n, f c = g c) (conditional : Bool) :
    t.accessesOfTarget f n conditional = t.accessesOfTarget g n conditional := by
  unfold accessesOfTarget
  rw [accessesOfSlot_congr h]
  split <;> try rfl
  split <;> try rfl
  rename_i slot hs
  rw [h slot (List.mem_of_getLast? hs)]

theorem local_accessStep (t : Tree) : t.Local t.accessStep := by
  intro n f g h
  have h : ∀ c ∈ t.children n, f c = g c := fun c hc => h c (.child hc)
  funext role conditional
  cases role with
  | operand => exact accessesOfOperand_congr h conditional
  | binding => exact accessesOfBinding_congr h conditional
  | target => exact accessesOfTarget_congr h conditional
  | slot => exact accessesOfSlot_congr h conditional

/-- The accesses of a node are made from those of its children. -/
theorem accessesAs_eq (acyclic : t.Acyclic) (n : NodeId) :
    t.accessesAs n = t.accessStep t.accessesAs n :=
  descend_eq acyclic t.local_accessStep _ n

end Tree
end Liveness
