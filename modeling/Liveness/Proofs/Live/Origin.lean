import Mathlib.Logic.Relation
import Liveness.Proofs.Live.Accesses

/-! Where an access comes from.

The list of a node is put together from the lists of nodes below it, each looked at in some role,
and a few accesses of its own. Both are said by rules that do not mention lists: what a look does
itself (`Does`), and which looks it leads to (`Leads`). One step of the walk lists just that,
whatever the looks below give. So in an acyclic tree an access is listed if and only if some look
that the first one comes to does it (`mem_accessesAs_iff`), and nothing has to be said about the
order of the list to know what is in it.

What may not be evaluated leads only to more of the kind, and there nothing but the slot of an
iteration is written, which counts as read too. So no write is listed there without a read
(`backed_accessesAs`), whatever the shape of the tree. -/
namespace Liveness

namespace Access

/-- A look at a node: in which role, and whether the node may be left undone. -/
structure Look where
  node : NodeId
  role : Role
  conditional : Bool

/-- What a walk finds at a look. -/
def Look.outcome (l : Look) (walk : NodeId → Walk) : Outcome := walk l.node l.role l.conditional

/-- Each write in the list has a read beside it. -/
def Backed (accesses : List Access) : Prop := ∀ x, .write x ∈ accesses → .read x ∈ accesses

/-- What is listed in order comes from one of the nodes. -/
theorem exists_of_mem_inOrder {visit : NodeId → Outcome} {ns : List NodeId} {accesses : List Access}
    (h : inOrder visit ns = .ok accesses) {x : Access} (hx : x ∈ accesses) :
    ∃ n ∈ ns, ∃ found, visit n = .ok found ∧ x ∈ found := by
  induction ns generalizing accesses with
  | nil =>
    obtain rfl := Except.ok.inj h
    cases hx
  | cons n ns ih =>
    obtain ⟨first, rest, hn, hns, rfl⟩ := inOrder_cons_ok h
    rcases List.mem_append.mp hx with hx | hx
    · exact ⟨n, by simp, first, hn, hx⟩
    · obtain ⟨m, hm, found⟩ := ih hns hx
      exact ⟨m, by simp [hm], found⟩

/-- Nodes that are listed in order are all listed. -/
theorem inOrder_listed {visit : NodeId → Outcome} {ns : List NodeId} {accesses : List Access}
    (h : inOrder visit ns = .ok accesses) {n : NodeId} (hn : n ∈ ns) :
    ∃ found, visit n = .ok found ∧ found ⊆ accesses := by
  induction ns generalizing accesses with
  | nil => cases hn
  | cons m ns ih =>
    obtain ⟨first, rest, hm, hns, rfl⟩ := inOrder_cons_ok h
    rcases List.mem_cons.mp hn with rfl | hn
    · exact ⟨first, hm, List.subset_append_left first rest⟩
    · obtain ⟨found, visited, sub⟩ := ih hns hn
      exact ⟨found, visited, List.subset_append_of_subset_right first sub⟩

end Access

namespace Tree
open Access

/-- What a look does itself. -/
inductive Does (t : Tree) : Look → Access → Prop
  | use {n : NodeId} {c : Bool} {x : String} :
      t.kind n = .name x → Does t ⟨n, .operand, c⟩ (.use x)
  | old {n : NodeId} {c : Bool} {op : AssignOp} {x : String} :
      t.kind n = .assign op → op ≠ .assign → t.assignee? n = some x →
      Does t ⟨n, .operand, c⟩ (.read x)
  | assign {n : NodeId} {op : AssignOp} {x : String} :
      t.kind n = .assign op → t.assignee? n = some x → Does t ⟨n, .operand, false⟩ (.write x)
  | initial {n : NodeId} {x : String} :
      t.name? n = some x → t.children n ≠ [] → Does t ⟨n, .binding, false⟩ (.write x)
  /-- The iteration may end before it fills its slot. -/
  | kept {n : NodeId} {c : Bool} {x : String} :
      t.name? n = some x → Does t ⟨n, .slot, c⟩ (.read x)
  | filled {n : NodeId} {c : Bool} {x : String} :
      t.name? n = some x → Does t ⟨n, .slot, c⟩ (.write x)
  | unnamed {n : NodeId} {c : Bool} {x : Access} :
      t.name? n = none → Does t ⟨n, .operand, c⟩ x → Does t ⟨n, .slot, c⟩ x
  | target {n : NodeId} {c : Bool} {x : Access} :
      (t.kind n).isDeclaration = false → Does t ⟨n, .slot, c⟩ x → Does t ⟨n, .target, c⟩ x

/-- The looks that a look leads to. -/
inductive Leads (t : Tree) : Look → Look → Prop
  | condition {n m : NodeId} {c : Bool} :
      (t.kind n).isBranch = true → t.condition? n = some m →
      Leads t ⟨n, .operand, c⟩ ⟨m, .operand, c⟩
  | iteration {n m : NodeId} {c : Bool} :
      (t.kind n).isIteration = true → (t.children n).head? = some m →
      Leads t ⟨n, .operand, c⟩ ⟨m, .target, c⟩
  | declaration {n m : NodeId} {c : Bool} :
      (t.kind n).isDeclaration = true → m ∈ t.children n →
      Leads t ⟨n, .operand, c⟩ ⟨m, .binding, c⟩
  | left {n m : NodeId} {c : Bool} :
      t.kind n = .and ∨ t.kind n = .or → (t.children n).head? = some m →
      Leads t ⟨n, .operand, c⟩ ⟨m, .operand, c⟩
  /-- What comes second in a choice may not be evaluated. -/
  | right {n m : NodeId} {c : Bool} :
      t.kind n = .and ∨ t.kind n = .or → t.child? n 1 = some m →
      Leads t ⟨n, .operand, c⟩ ⟨m, .operand, true⟩
  | test {n m : NodeId} {c : Bool} :
      t.kind n = .conditional → (t.children n).head? = some m →
      Leads t ⟨n, .operand, c⟩ ⟨m, .operand, c⟩
  | branch {n m : NodeId} {c : Bool} :
      t.kind n = .conditional → m ∈ (t.children n).drop 1 →
      Leads t ⟨n, .operand, c⟩ ⟨m, .operand, true⟩
  | value {n m : NodeId} {c : Bool} {op : AssignOp} {x : String} :
      t.kind n = .assign op → t.assignee? n = some x → t.child? n 1 = some m →
      Leads t ⟨n, .operand, c⟩ ⟨m, .operand, c⟩
  | assignTo {n m : NodeId} {c : Bool} {op : AssignOp} :
      t.kind n = .assign op → t.assignee? n = none → m ∈ t.children n →
      Leads t ⟨n, .operand, c⟩ ⟨m, .operand, c⟩
  | plain {n m : NodeId} {c : Bool} :
      (t.kind n).isPlain = true → m ∈ t.children n → Leads t ⟨n, .operand, c⟩ ⟨m, .operand, c⟩
  | initial {n m : NodeId} {c : Bool} {x : String} :
      t.name? n = some x → (t.children n).head? = some m →
      Leads t ⟨n, .binding, c⟩ ⟨m, .operand, c⟩
  | unnamed {n : NodeId} {c : Bool} {l : Look} :
      t.name? n = none → Leads t ⟨n, .operand, c⟩ l → Leads t ⟨n, .slot, c⟩ l
  | target {n : NodeId} {c : Bool} {l : Look} :
      (t.kind n).isDeclaration = false → Leads t ⟨n, .slot, c⟩ l → Leads t ⟨n, .target, c⟩ l
  | declared {n m : NodeId} {c : Bool} :
      (t.kind n).isDeclaration = true → (t.children n).getLast? = some m →
      Leads t ⟨n, .target, c⟩ ⟨m, .slot, c⟩

variable {t : Tree} {below : NodeId → Walk} {n : NodeId} {c : Bool} {accesses : List Access}

/-! ### One step -/

theorem outcome_operand : (⟨n, .operand, c⟩ : Look).outcome (t.accessStep below) =
    t.accessesOfOperand below n c := rfl

theorem outcome_binding : (⟨n, .binding, c⟩ : Look).outcome (t.accessStep below) =
    t.accessesOfBinding below n c := rfl

theorem outcome_target : (⟨n, .target, c⟩ : Look).outcome (t.accessStep below) =
    t.accessesOfTarget below n c := rfl

theorem outcome_slot : (⟨n, .slot, c⟩ : Look).outcome (t.accessStep below) =
    t.accessesOfSlot below n c := rfl

theorem mem_take_one {ns : List NodeId} {m : NodeId} : m ∈ ns.take 1 ↔ ns.head? = some m := by
  cases ns <;> simp [eq_comm]

theorem mem_take_one_drop_one {ns : List NodeId} {m : NodeId} :
    m ∈ (ns.drop 1).take 1 ↔ ns[1]? = some m := by
  rw [mem_take_one, List.head?_drop]

section Listed
variable {l : Look} {x : Access}

/-- Nodes that are listed in order are all looked at in one role and with one flag. -/
theorem exists_leads_of_inOrder {ns : List NodeId} {role : Role} {b : Bool}
    (leads : ∀ m ∈ ns, t.Leads l ⟨m, role, b⟩) (h : inOrder (below · role b) ns = .ok accesses)
    (hx : x ∈ accesses) : ∃ l' found, t.Leads l l' ∧ l'.outcome below = .ok found ∧ x ∈ found := by
  obtain ⟨m, hm, found, visited, hx⟩ := exists_of_mem_inOrder h hx
  exact ⟨⟨m, role, b⟩, found, leads m hm, visited, hx⟩

theorem exists_leads_of_choice {first rest : List NodeId}
    (before : ∀ m ∈ first, t.Leads l ⟨m, .operand, c⟩)
    (after : ∀ m ∈ rest, t.Leads l ⟨m, .operand, true⟩)
    (h : accessesOfChoice below c first rest = .ok accesses) (hx : x ∈ accesses) :
    ∃ l' found, t.Leads l l' ∧ l'.outcome below = .ok found ∧ x ∈ found := by
  obtain ⟨_, _, hf, hr, rfl⟩ := accessesOfChoice_ok h
  rcases List.mem_append.mp hx with hx | hx
  · exact exists_leads_of_inOrder before hf hx
  · exact exists_leads_of_inOrder after hr hx

/-- An assignment to a name reads the name if it is compound, lists its value, and writes the
name if it is sure to be evaluated. -/
theorem does_or_leads_assign {op : AssignOp} {y : String} (assign : t.kind n = .assign op)
    (named : t.assignee? n = some y) (h : t.accessesOfOperand below n c = .ok accesses)
    (hx : x ∈ accesses) :
    t.Does ⟨n, .operand, c⟩ x ∨
      ∃ l found, t.Leads ⟨n, .operand, c⟩ l ∧ l.outcome below = .ok found ∧ x ∈ found := by
  obtain ⟨target, value, rest, hc, hy, second⟩ := assignee?_eq_some named
  rw [accessesOfOperand_assign assign hc hy] at h
  obtain ⟨inner, hv, rfl⟩ := assignment_ok h
  rw [List.mem_append, List.mem_append] at hx
  rcases hx with (old | hx) | written
  · split at old
    · cases old
    · next compound =>
      obtain rfl := List.mem_singleton.mp old
      exact .inl (.old assign compound named)
  · exact .inr ⟨⟨value, .operand, c⟩, inner, .value assign named second, hv, hx⟩
  · cases c with
    | true => cases written
    | false =>
      obtain rfl := List.mem_singleton.mp written
      exact .inl (.assign assign named)

/-- What an operand lists it does itself, or a look it leads to lists it. -/
theorem does_or_leads_operand (h : t.accessesOfOperand below n c = .ok accesses)
    (hx : x ∈ accesses) :
    t.Does ⟨n, .operand, c⟩ x ∨
      ∃ l found, t.Leads ⟨n, .operand, c⟩ l ∧ l.outcome below = .ok found ∧ x ∈ found := by
  rcases Kind.cases_by_rule (t.kind n) with
    silent | branch | iteration | declaration | choice | hook | ⟨y, name⟩ | ⟨op, assign⟩ | plain
  · rw [accessesOfOperand_silent silent] at h
    obtain rfl := Except.ok.inj h
    cases hx
  · rw [accessesOfOperand_branch branch] at h
    exact .inr (exists_leads_of_inOrder (fun m hm => .condition branch (by simpa using hm)) h hx)
  · rw [accessesOfOperand_iteration iteration] at h
    exact .inr (exists_leads_of_inOrder
      (fun m hm => .iteration iteration (mem_take_one.mp hm)) h hx)
  · rw [accessesOfOperand_declaration declaration] at h
    exact .inr (exists_leads_of_inOrder (fun m hm => .declaration declaration hm) h hx)
  · rw [accessesOfOperand_choice choice] at h
    exact .inr (exists_leads_of_choice (fun m hm => .left choice (mem_take_one.mp hm))
      (fun m hm => .right choice (mem_take_one_drop_one.mp hm)) h hx)
  · rw [accessesOfOperand_conditional hook] at h
    exact .inr (exists_leads_of_choice (fun m hm => .test hook (mem_take_one.mp hm))
      (fun m hm => .branch hook hm) h hx)
  · rw [accessesOfOperand_name name] at h
    obtain rfl := Except.ok.inj h
    obtain rfl := List.mem_singleton.mp hx
    exact .inl (.use name)
  · cases named : t.assignee? n with
    | some y => exact does_or_leads_assign assign named h hx
    | none =>
      rw [accessesOfOperand_assignTo assign (assignee?_eq_none named)] at h
      exact .inr (exists_leads_of_inOrder (fun m hm => .assignTo assign named hm) h hx)
  · rw [accessesOfOperand_plain plain] at h
    exact .inr (exists_leads_of_inOrder (fun m hm => .plain plain hm) h hx)

theorem does_or_leads_slot (h : t.accessesOfSlot below n c = .ok accesses) (hx : x ∈ accesses) :
    t.Does ⟨n, .slot, c⟩ x ∨
      ∃ l found, t.Leads ⟨n, .slot, c⟩ l ∧ l.outcome below = .ok found ∧ x ∈ found := by
  cases named : t.name? n with
  | some y =>
    rw [accessesOfSlot_named named] at h
    obtain rfl := Except.ok.inj h
    simp only [List.mem_cons, List.not_mem_nil, or_false] at hx
    rcases hx with rfl | rfl
    · exact .inl (.kept named)
    · exact .inl (.filled named)
  | none =>
    rw [accessesOfSlot_unnamed named] at h
    rcases does_or_leads_operand h hx with does | ⟨l, found, leads, rest⟩
    · exact .inl (.unnamed named does)
    · exact .inr ⟨l, found, .unnamed named leads, rest⟩

/-- What a look lists it does itself, or a look it leads to lists it. -/
theorem does_or_leads (h : l.outcome (t.accessStep below) = .ok accesses) (hx : x ∈ accesses) :
    t.Does l x ∨ ∃ l' found, t.Leads l l' ∧ l'.outcome below = .ok found ∧ x ∈ found := by
  obtain ⟨n, role, c⟩ := l
  cases role with
  | operand => exact does_or_leads_operand h hx
  | slot => exact does_or_leads_slot h hx
  | binding =>
    rw [outcome_binding] at h
    obtain ⟨y, named, ⟨_, rfl⟩ | ⟨value, rest, inner, hc, hv, rfl⟩⟩ := accessesOfBinding_ok h
    · cases hx
    · rcases List.mem_append.mp hx with hx | written
      · exact .inr ⟨⟨value, .operand, c⟩, inner, .initial named (by rw [hc]; rfl), hv, hx⟩
      · cases c with
        | true => cases written
        | false =>
          obtain rfl := List.mem_singleton.mp written
          exact .inl (.initial named (by simp [hc]))
  | target =>
    cases declaration : (t.kind n).isDeclaration with
    | true =>
      rw [outcome_target, accessesOfTarget, if_pos declaration] at h
      split at h
      · next slot last => exact .inr ⟨⟨slot, .slot, c⟩, accesses, .declared declaration last, h, hx⟩
      · cases h
    | false =>
      rw [outcome_target, accessesOfTarget_place declaration] at h
      rcases does_or_leads_slot h hx with does | ⟨l, found, leads, rest⟩
      · exact .inl (.target declaration does)
      · exact .inr ⟨l, found, .target declaration leads, rest⟩

/-- What a look does itself is listed. -/
theorem listed_of_does (does : t.Does l x)
    (h : l.outcome (t.accessStep below) = .ok accesses) : x ∈ accesses := by
  induction does with
  | use name =>
    rw [outcome_operand, accessesOfOperand_name name] at h
    obtain rfl := Except.ok.inj h
    simp
  | old assign compound named =>
    obtain ⟨target, value, rest, hc, hy, _⟩ := assignee?_eq_some named
    rw [outcome_operand, accessesOfOperand_assign assign hc hy] at h
    obtain ⟨inner, _, rfl⟩ := assignment_ok h
    simp [compound]
  | assign assign named =>
    obtain ⟨target, value, rest, hc, hy, _⟩ := assignee?_eq_some named
    rw [outcome_operand, accessesOfOperand_assign assign hc hy] at h
    obtain ⟨inner, _, rfl⟩ := assignment_ok h
    simp [writes]
  | @initial n x named some =>
    rw [outcome_binding] at h
    obtain ⟨y, hy, ⟨none, _⟩ | ⟨value, rest, inner, _, _, rfl⟩⟩ := accessesOfBinding_ok h
    · exact absurd none some
    · obtain rfl := Option.some.inj (named.symm.trans hy)
      simp [writes]
  | kept named =>
    rw [outcome_slot, accessesOfSlot_named named] at h
    obtain rfl := Except.ok.inj h
    simp
  | filled named =>
    rw [outcome_slot, accessesOfSlot_named named] at h
    obtain rfl := Except.ok.inj h
    simp
  | unnamed unnamed _ ih =>
    rw [outcome_slot, accessesOfSlot_unnamed unnamed] at h
    exact ih h
  | target place _ ih =>
    rw [outcome_target, accessesOfTarget_place place] at h
    exact ih h

theorem choice_listed_first {first rest : List NodeId} {m : NodeId} (hm : m ∈ first)
    (h : accessesOfChoice below c first rest = .ok accesses) :
    ∃ found, below m .operand c = .ok found ∧ found ⊆ accesses := by
  obtain ⟨before, after, hf, _, rfl⟩ := accessesOfChoice_ok h
  obtain ⟨found, visited, sub⟩ := inOrder_listed hf hm
  exact ⟨found, visited, List.subset_append_of_subset_left after sub⟩

theorem choice_listed_rest {first rest : List NodeId} {m : NodeId} (hm : m ∈ rest)
    (h : accessesOfChoice below c first rest = .ok accesses) :
    ∃ found, below m .operand true = .ok found ∧ found ⊆ accesses := by
  obtain ⟨before, after, _, hr, rfl⟩ := accessesOfChoice_ok h
  obtain ⟨found, visited, sub⟩ := inOrder_listed hr hm
  exact ⟨found, visited, List.subset_append_of_subset_right before sub⟩

theorem value_listed {op : AssignOp} {y : String} {m : NodeId} (assign : t.kind n = .assign op)
    (named : t.assignee? n = some y) (hm : t.child? n 1 = some m)
    (h : t.accessesOfOperand below n c = .ok accesses) :
    ∃ found, below m .operand c = .ok found ∧ found ⊆ accesses := by
  obtain ⟨target, value, rest, hc, hy, second⟩ := assignee?_eq_some named
  obtain rfl := Option.some.inj (second.symm.trans hm)
  rw [accessesOfOperand_assign assign hc hy] at h
  obtain ⟨inner, hv, rfl⟩ := assignment_ok h
  refine ⟨inner, hv, fun x hx => ?_⟩
  simp [hx]

theorem initial_listed {m : NodeId} (hm : (t.children n).head? = some m)
    (h : t.accessesOfBinding below n c = .ok accesses) :
    ∃ found, below m .operand c = .ok found ∧ found ⊆ accesses := by
  obtain ⟨_, _, ⟨none, _⟩ | ⟨value, rest, inner, hc, hv, rfl⟩⟩ := accessesOfBinding_ok h
  · rw [none] at hm
    cases hm
  · rw [hc] at hm
    obtain rfl := Option.some.inj hm
    exact ⟨inner, hv, List.subset_append_left inner _⟩

/-- The looks that a look leads to are listed with it. -/
theorem listed_of_leads {l' : Look} (leads : t.Leads l l')
    (h : l.outcome (t.accessStep below) = .ok accesses) :
    ∃ found, l'.outcome below = .ok found ∧ found ⊆ accesses := by
  induction leads with
  | condition branch hm =>
    rw [outcome_operand, accessesOfOperand_branch branch] at h
    exact inOrder_listed h (by simp [hm])
  | iteration iteration hm =>
    rw [outcome_operand, accessesOfOperand_iteration iteration] at h
    exact inOrder_listed h (mem_take_one.mpr hm)
  | declaration declaration hm =>
    rw [outcome_operand, accessesOfOperand_declaration declaration] at h
    exact inOrder_listed h hm
  | left choice hm =>
    rw [outcome_operand, accessesOfOperand_choice choice] at h
    exact choice_listed_first (mem_take_one.mpr hm) h
  | right choice hm =>
    rw [outcome_operand, accessesOfOperand_choice choice] at h
    exact choice_listed_rest (mem_take_one_drop_one.mpr hm) h
  | test hook hm =>
    rw [outcome_operand, accessesOfOperand_conditional hook] at h
    exact choice_listed_first (mem_take_one.mpr hm) h
  | branch hook hm =>
    rw [outcome_operand, accessesOfOperand_conditional hook] at h
    exact choice_listed_rest hm h
  | value assign named hm => exact value_listed assign named hm h
  | assignTo assign named hm =>
    rw [outcome_operand, accessesOfOperand_assignTo assign (assignee?_eq_none named)] at h
    exact inOrder_listed h hm
  | plain plain hm =>
    rw [outcome_operand, accessesOfOperand_plain plain] at h
    exact inOrder_listed h hm
  | initial _ hm => exact initial_listed hm h
  | unnamed unnamed _ ih =>
    rw [outcome_slot, accessesOfSlot_unnamed unnamed] at h
    exact ih h
  | target place _ ih =>
    rw [outcome_target, accessesOfTarget_place place] at h
    exact ih h
  | declared declaration last =>
    rw [outcome_target, accessesOfTarget, if_pos declaration, last] at h
    exact ⟨accesses, h, fun _ hx => hx⟩

end Listed

/-! ### What may not be evaluated -/

theorem Leads.conditional {l l' : Look} (leads : t.Leads l l') (hl : l.conditional = true) :
    l'.conditional = true := by
  induction leads with
  | right | branch => rfl
  | unnamed _ _ ih => exact ih hl
  | target _ _ ih => exact ih hl
  | _ => exact hl

/-- Of what may not be evaluated only a slot is written, and it counts as read. -/
theorem Does.read_of_write {l : Look} {x : String} (does : t.Does l (.write x))
    (hl : l.conditional = true) : t.Does l (.read x) := by
  generalize hy : Access.write x = y at does
  induction does with
  | use | old | kept => cases hy
  | assign | initial => cases hl
  | filled named =>
    obtain rfl := Access.write.inj hy
    exact .kept named
  | unnamed unnamed _ ih => exact .unnamed unnamed (ih hl hy)
  | target place _ ih => exact .target place (ih hl hy)

theorem backed_descendTo (depth : Nat) {l : Look} (hl : l.conditional = true)
    (h : l.outcome (descendTo t.accessStep (fun _ _ => .ok []) depth) = .ok accesses) :
    Backed accesses := by
  -- The walk is cut off at some depth, and that is all there is to go by in a tree of any shape.
  induction depth generalizing l accesses with
  | zero =>
    obtain rfl := Except.ok.inj h
    intro x hx
    cases hx
  | succ depth ih =>
    intro x hx
    rcases does_or_leads h hx with does | ⟨l', found, leads, visited, hx⟩
    · exact listed_of_does (does.read_of_write hl) h
    · obtain ⟨found', visited', sub⟩ := listed_of_leads leads h
      obtain rfl := Except.ok.inj (visited.symm.trans visited')
      exact sub (ih (leads.conditional hl) visited x hx)

/-- What may not be evaluated lists no write without a read. -/
theorem backed_accessesAs {role : Role} (h : t.accessesAs n role true = .ok accesses) :
    Backed accesses :=
  backed_descendTo (t.size + 1) (l := ⟨n, role, true⟩) rfl h

/-! ### Every look -/

theorem Leads.child {l l' : Look} (leads : t.Leads l l') : l'.node ∈ t.children l.node := by
  induction leads with
  | condition _ hm => exact mem_children_of_condition? hm
  | declaration _ hm | assignTo _ _ hm | plain _ hm => exact hm
  | iteration _ hm | left _ hm | test _ hm | initial _ hm => exact List.mem_of_head? hm
  | right _ hm | value _ _ hm => exact List.mem_of_getElem? hm
  | branch _ hm => exact List.mem_of_mem_drop hm
  | unnamed _ _ ih => exact ih
  | target _ _ ih => exact ih
  | declared _ last => exact List.mem_of_getLast? last

/-- An operand other than a function leads to operands, and a function leads nowhere. -/
theorem Leads.of_operand {l : Look} (leads : t.Leads ⟨n, .operand, c⟩ l)
    (operand : (t.kind n).isOperand = true) : l.role = .operand ∧ t.kind n ≠ .function := by
  cases leads with
  | iteration iteration =>
    rw [Kind.isOperand, Kind.isStatement_of_isIteration iteration] at operand
    cases operand
  | declaration declaration =>
    rw [Kind.isOperand, Kind.isStatement_of_isDeclaration declaration] at operand
    cases operand
  | condition branch => exact ⟨rfl, fun h => by rw [h] at branch; cases branch⟩
  | plain plain => exact ⟨rfl, fun h => by rw [h] at plain; cases plain⟩
  | left choice | right choice => exact ⟨rfl, by rcases choice with h | h <;> simp [h]⟩
  | test kind | branch kind | value kind | assignTo kind => exact ⟨rfl, by simp [kind]⟩

/-- Some look that the first one comes to does it. -/
def Lists (t : Tree) (l : Look) (x : Access) : Prop :=
  ∃ l', Relation.ReflTransGen t.Leads l l' ∧ t.Does l' x

section Acyclic
variable (acyclic : t.Acyclic)
include acyclic

theorem outcome_accessesAs (l : Look) :
    l.outcome t.accessesAs = l.outcome (t.accessStep t.accessesAs) :=
  congrFun (congrFun (accessesAs_eq acyclic l.node) l.role) l.conditional

theorem lists_of_mem {x : Access} (n : NodeId) : ∀ role c accesses,
    t.accessesAs n role c = .ok accesses → x ∈ accesses → t.Lists ⟨n, role, c⟩ x := by
  induction n using acyclic.induct with
  | step n ih =>
    intro role c accesses h hx
    have step := (outcome_accessesAs acyclic ⟨n, role, c⟩).symm.trans h
    rcases does_or_leads step hx with does | ⟨l, found, leads, visited, hx⟩
    · exact ⟨_, .refl, does⟩
    · obtain ⟨l', comes, does⟩ := ih l.node leads.child l.role l.conditional found visited hx
      exact ⟨l', .head leads comes, does⟩

theorem mem_of_lists {l : Look} {x : Access} (lists : t.Lists l x)
    (h : l.outcome t.accessesAs = .ok accesses) : x ∈ accesses := by
  obtain ⟨l', comes, does⟩ := lists
  induction comes using Relation.ReflTransGen.head_induction_on generalizing accesses with
  | refl =>
    rw [outcome_accessesAs acyclic] at h
    exact listed_of_does does h
  | head leads _ ih =>
    rw [outcome_accessesAs acyclic] at h
    obtain ⟨found, visited, sub⟩ := listed_of_leads leads h
    exact sub (ih visited)

/-- **An access is listed if and only if some look that the node leads to does it.** -/
theorem mem_accessesAs_iff {role : Role} (h : t.accessesAs n role c = .ok accesses) {x : Access} :
    x ∈ accesses ↔ t.Lists ⟨n, role, c⟩ x :=
  ⟨lists_of_mem acyclic n role c accesses h, fun lists => mem_of_lists acyclic lists h⟩

end Acyclic
end Tree
end Liveness
