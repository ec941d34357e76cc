import Liveness.Proofs.Live.Origin

/-! What the list of accesses says about evaluation.

The list of accesses of a node is one for all of its evaluations, so it cannot be any of
them. It covers them (`Covers`): whatever an evaluation reads is listed as read, and a write
that is listed is done by each of them, unless the name is listed as read too. What may not
be evaluated at all lists no other writes than those, so it covers even the empty
evaluation, and covering is kept when lists and evaluations are put one behind the other.
That is all it takes to go through the rules (`covers_of_evaluates`).

The one construct that can break this is an iteration whose target is not a name: it is
evaluated once for each round, perhaps never, but listed as if it always were. Its target
must not assign anything. -/
namespace Liveness

/-! ### Lists that cover -/

namespace Access

/-- The list has the name among what is read. -/
def Reads (accesses : List Access) (x : String) : Prop := .use x ∈ accesses ∨ .read x ∈ accesses

theorem Reads.append_left {first : List Access} {x : String} (h : Reads first x)
    (second : List Access) : Reads (first ++ second) x :=
  h.imp (List.mem_append_left _) (List.mem_append_left _)

theorem Reads.append_right {second : List Access} {x : String} (first : List Access)
    (h : Reads second x) : Reads (first ++ second) x :=
  h.imp (List.mem_append_right _) (List.mem_append_right _)

/-- What is read is listed as read, and each write that is listed is done, unless the name is
listed as read too. -/
structure Covers (accesses : List Access) (trace : List Action) : Prop where
  reads : ∀ x, .read x ∈ trace → Reads accesses x
  writes : ∀ x, .write x ∈ accesses → Reads accesses x ∨ .write x ∈ trace

theorem Covers.nil : Covers [] [] := ⟨by simp, by simp⟩

theorem Covers.append {first second : List Access} {before after : List Action}
    (h : Covers first before) (h' : Covers second after) :
    Covers (first ++ second) (before ++ after) where
  reads x hx := by
    rcases List.mem_append.mp hx with hx | hx
    · exact (h.reads x hx).append_left second
    · exact (h'.reads x hx).append_right first
  writes x hx := by
    rcases List.mem_append.mp hx with hx | hx
    · exact (h.writes x hx).imp (·.append_left second) (List.mem_append_left _)
    · exact (h'.writes x hx).imp (·.append_right first) (List.mem_append_right _)

/-- A list that covers the empty evaluation can be left undone. -/
theorem Covers.append_skipped {first second : List Access} {trace : List Action}
    (h : Covers first trace) (h' : Covers second []) : Covers (first ++ second) trace := by
  have := h.append h'
  rwa [List.append_nil] at this

/-- What lists no write without a read can be left undone. -/
theorem Backed.covers_nil {accesses : List Access} (h : Backed accesses) : Covers accesses [] :=
  ⟨by simp, fun x hx => .inl (.inr (h x hx))⟩

theorem covers_use (x : String) : Covers [.use x] [.read x] := ⟨by simp [Reads], by simp⟩

theorem covers_old (op : AssignOp) (x : String) :
    Covers (if op = .assign then [] else [.read x]) (if op = .assign then [] else [.read x]) := by
  split
  · exact .nil
  · exact ⟨by simp [Reads], by simp⟩

theorem covers_writes (conditional : Bool) (x : String) :
    Covers (writes conditional x) [.write x] := by
  cases conditional <;> exact ⟨by simp, by simp [writes]⟩

/-- A slot may be filled or not. -/
theorem covers_slot (x : String) {trace : List Action} (unread : ∀ y, .read y ∉ trace) :
    Covers [.read x, .write x] trace :=
  ⟨fun y hy => absurd hy (unread y), by simp [Reads]⟩

/-- An evaluation broken off is covered if one that never began is. -/
theorem Covers.of_begun {accesses : List Access} {trace whole : List Action}
    (h : Covers accesses whole) (begun : trace <+: whole) (skipped : Covers accesses []) :
    Covers accesses trace where
  reads x hx := h.reads x (begun.subset hx)
  writes x hx := .inl ((skipped.writes x hx).resolve_right (by simp))

/-- Nodes that are each covered are covered in turn. -/
theorem inOrder_covers {visit : NodeId → Outcome} {R : NodeId → List Action → Prop}
    {ns : List NodeId} {trace : List Action}
    (each : ∀ n ∈ ns, ∀ accesses trace, R n trace → visit n = .ok accesses → Covers accesses trace)
    (turn : Tree.InTurn R ns trace) {accesses : List Access} (h : inOrder visit ns = .ok accesses) :
    Covers accesses trace := by
  induction turn generalizing accesses with
  | nil => exact Except.ok.inj h ▸ .nil
  | cons hn _ ih =>
    obtain ⟨first, rest, hv, hvs, rfl⟩ := inOrder_cons_ok h
    exact (each _ (by simp) first _ hn hv).append (ih (fun m hm => each m (by simp [hm])) hvs)

end Access

namespace Tree
open Access
variable {t : Tree} {n : NodeId} {conditional : Bool}
  {accesses : List Access}

/-! ### What may be left undone -/

/-- The targets of iterations, names apart, assign nothing. -/
def PlainTargets (t : Tree) : Prop :=
  ∀ n < t.size, (t.kind n).isIteration = true → ∀ slot ∈ t.slot? n, t.name? slot = none →
    ∀ m ∈ t.preorder slot, (t.kind m).isAssignment = false

instance (t : Tree) : Decidable t.PlainTargets :=
  inferInstanceAs (Decidable (∀ n < t.size, (t.kind n).isIteration = true → ∀ slot ∈ t.slot? n, _))

section Acyclic
variable (acyclic : t.Acyclic)
include acyclic

/-- An operand without assignments lists no write. -/
theorem unwritten_of_unassigned (laidOut : t.LaidOut) {x : String} (n : NodeId) :
    (t.kind n).isOperand = true → (∀ m ∈ t.preorder n, (t.kind m).isAssignment = false) →
    ∀ conditional accesses, t.accessesAs n .operand conditional = .ok accesses →
      .write x ∉ accesses := by
  induction n using acyclic.induct with
  | step n ih =>
    intro operand unassigned conditional accesses h hx
    rw [preorder_eq acyclic] at unassigned
    rw [accessesAs_operand acyclic] at h
    rcases does_or_leads_operand h hx with does | ⟨⟨m, role, b⟩, found, leads, visited, hx⟩
    · cases does with
      | assign assign _ =>
        have := unassigned n (by simp)
        rw [assign] at this
        cases this
    · obtain ⟨rfl, ordinary⟩ := leads.of_operand operand
      refine ih m leads.child (laidOut.operand_child operand ordinary leads.child) (fun j hj => ?_)
        b found visited hx
      exact unassigned j (List.mem_cons_of_mem n (List.mem_flatMap.mpr ⟨m, leads.child, hj⟩))

/-! ### The constructs, one by one -/

/-- Where the node is listed as an operand, the list covers this. -/
def Accounts (t : Tree) (n : NodeId) (conditional : Bool) (trace : List Action) : Prop :=
  ∀ accesses, t.accessesAs n .operand conditional = .ok accesses → Covers accesses trace

omit acyclic in
/-- What may not be evaluated accounts for not being evaluated. -/
theorem accounts_skipped (n : NodeId) : t.Accounts n true [] :=
  fun _ h => (backed_accessesAs h).covers_nil

theorem accounts_silent (silent : (t.kind n).isSilent = true) : t.Accounts n conditional [] := by
  intro accesses h
  rw [accessesAs_operand acyclic, accessesOfOperand_silent silent] at h
  exact Except.ok.inj h ▸ .nil

theorem accounts_name {x : String} (name : t.kind n = .name x) :
    t.Accounts n conditional [.read x] := by
  intro accesses h
  rw [accessesAs_operand acyclic, accessesOfOperand_name name] at h
  exact Except.ok.inj h ▸ covers_use x

/-- Operands that are listed in order are evaluated in turn. -/
theorem accounts_inTurn {R : NodeId → List Action → Prop} {ns : List NodeId} {trace : List Action}
    (listed : t.accessesOfOperand t.accessesAs n conditional =
      inOrder (t.accessesAs · .operand conditional) ns)
    (each : ∀ c ∈ ns, ∀ trace, R c trace → t.Accounts c conditional trace)
    (turn : InTurn R ns trace) : t.Accounts n conditional trace := by
  intro accesses h
  rw [accessesAs_operand acyclic, listed] at h
  exact inOrder_covers (fun c hc accesses trace hR => each c hc trace hR accesses) turn h

theorem accounts_choice {left right : NodeId} {first second : List Action}
    (choice : t.kind n = .and ∨ t.kind n = .or) (hc : t.children n = [left, right])
    (hl : t.Accounts left conditional first) (hr : t.Accounts right true second) :
    t.Accounts n conditional (first ++ second) := by
  intro accesses h
  obtain ⟨before, after, before_ok, after_ok, rfl⟩ := choice_ok acyclic choice hc h
  exact (hl before before_ok).append (hr after after_ok)

/-- The branch that is not chosen is left undone. -/
theorem accounts_conditional {condition yes no chosen : NodeId} {first second : List Action}
    (hook : t.kind n = .conditional) (hc : t.children n = [condition, yes, no])
    (choice : chosen = yes ∨ chosen = no) (hf : t.Accounts condition conditional first)
    (hs : t.Accounts chosen true second) : t.Accounts n conditional (first ++ second) := by
  intro accesses h
  obtain ⟨before, met, unmet, before_ok, met_ok, unmet_ok, rfl⟩ := conditional_ok acyclic hook hc h
  refine (hf before before_ok).append ?_
  rcases choice with rfl | rfl
  · exact (hs met met_ok).append_skipped (accounts_skipped no unmet unmet_ok)
  · exact (accounts_skipped yes met met_ok).append (hs unmet unmet_ok)

theorem accounts_assign {target value : NodeId} {op : AssignOp} {x : String} {trace : List Action}
    (assign : t.kind n = .assign op) (hc : t.children n = [target, value])
    (named : t.name? target = some x) (hv : t.Accounts value conditional trace) :
    t.Accounts n conditional
      ((if op = .assign then [] else [.read x]) ++ trace ++ [.write x]) := by
  intro accesses h
  rw [accessesAs_operand acyclic, accessesOfOperand_assign assign hc named] at h
  obtain ⟨inner, inner_ok, rfl⟩ := assignment_ok h
  exact ((covers_old op x).append (hv inner inner_ok)).append (covers_writes conditional x)

/-- A target that is not a name is an operand like the value. -/
theorem accounts_assignTo {R : NodeId → List Action → Prop} {target value : NodeId} {op : AssignOp}
    {trace : List Action} (assign : t.kind n = .assign op) (hc : t.children n = [target, value])
    (unnamed : t.name? target = none)
    (each : ∀ c ∈ t.children n, ∀ trace, R c trace → t.Accounts c conditional trace)
    (turn : InTurn R [target, value] trace) : t.Accounts n conditional trace := by
  refine accounts_inTurn acyclic (accessesOfOperand_assignTo assign ?_) each (hc ▸ turn)
  intro _ _ _ hc'
  obtain ⟨rfl, _⟩ := List.cons.inj (hc ▸ hc')
  exact unnamed

/-- Declared names that have their initial values covered are covered. -/
theorem declares_covers {R : NodeId → List Action → Prop} {ns : List NodeId} {trace : List Action}
    (each : ∀ n ∈ ns, ∀ c ∈ t.children n, ∀ trace, R c trace → t.Accounts c conditional trace)
    (declares : t.Declares R ns trace)
    (h : inOrder (t.accessesAs · .binding conditional) ns = .ok accesses) :
    Covers accesses trace := by
  induction declares generalizing accesses with
  | nil => exact Except.ok.inj h ▸ .nil
  | @bare n ns x rest named none _ ih =>
    obtain ⟨first, others, hn, hns, rfl⟩ := inOrder_cons_ok h
    have covers := ih (fun m hm => each m (by simp [hm])) hns
    obtain ⟨_, _, ⟨_, rfl⟩ | ⟨_, _, _, some, _⟩⟩ := binding_ok acyclic hn
    · exact covers
    · rw [none] at some
      cases some
  | @initial n value ns x first rest named one evaluates _ ih =>
    obtain ⟨_, others, hn, hns, rfl⟩ := inOrder_cons_ok h
    have covers := ih (fun m hm => each m (by simp [hm])) hns
    obtain ⟨y, hy, ⟨none, _⟩ | ⟨_, _, inner, hc, hv, rfl⟩⟩ := binding_ok acyclic hn
    · rw [one] at none
      cases none
    · obtain rfl := Option.some.inj (named ▸ hy)
      obtain ⟨rfl, rfl⟩ := List.cons.inj (one ▸ hc)
      have value := each n (by simp) value (by simp [one]) first evaluates inner hv
      exact (value.append (covers_writes conditional x)).append covers

theorem accounts_declaration {R : NodeId → List Action → Prop} {trace : List Action}
    (declaration : (t.kind n).isDeclaration = true)
    (each : ∀ c ∈ t.children n, ∀ d ∈ t.children c, ∀ trace, R d trace →
      t.Accounts d conditional trace)
    (declares : t.Declares R (t.children n) trace) : t.Accounts n conditional trace := by
  intro accesses h
  rw [accessesAs_operand acyclic, accessesOfOperand_declaration declaration] at h
  exact declares_covers acyclic each declares h

section LaidOut
variable (laidOut : t.LaidOut) (iteration : (t.kind n).isIteration = true)
include laidOut iteration

/-- An iteration that is over has done nothing, so what it fills must assign nothing. -/
theorem accounts_ended (plain : t.PlainTargets) : t.Accounts n conditional [] := by
  intro accesses h
  obtain ⟨slot, hs, ⟨x, _, rfl⟩ | ⟨unnamed, hc, operand, h⟩⟩ :=
    iteration_ok acyclic laidOut iteration h
  · exact covers_slot x (by simp)
  · have unassigned := plain n (lt_size_of_mem_children hc) iteration slot hs unnamed
    exact Backed.covers_nil fun x hx => absurd hx
      (unwritten_of_unassigned acyclic laidOut slot operand unassigned conditional accesses h)

theorem accounts_fill {slot : NodeId} {x : String} (hs : t.slot? n = some slot)
    (named : t.name? slot = some x) : t.Accounts n conditional [.write x] := by
  intro accesses h
  obtain ⟨slot', hs', ⟨y, _, rfl⟩ | ⟨unnamed, _⟩⟩ := iteration_ok acyclic laidOut iteration h
  · exact covers_slot y (by simp)
  · obtain rfl := Option.some.inj (hs ▸ hs')
    rw [named] at unnamed
    cases unnamed

theorem accounts_fillTo {slot : NodeId} {trace : List Action} (hs : t.slot? n = some slot)
    (unnamed : t.name? slot = none)
    (each : slot ∈ t.children n → t.Accounts slot conditional trace) :
    t.Accounts n conditional trace := by
  intro accesses h
  obtain ⟨slot', hs', ⟨x, named, _⟩ | ⟨_, hc, _, h⟩⟩ := iteration_ok acyclic laidOut iteration h
  all_goals obtain rfl := Option.some.inj (hs ▸ hs')
  · rw [unnamed] at named
    cases named
  · exact each hc accesses h

end LaidOut

/-! ### Every evaluation is covered -/

/-- **The accesses of a node cover its evaluations.** -/
theorem covers_of_evaluates (laidOut : t.LaidOut) (plain : t.PlainTargets) (n : NodeId) :
    ∀ conditional trace, t.Evaluates n trace → t.Accounts n conditional trace := by
  -- An initial value is two levels below its declaration, so all that is below has to be covered.
  induction n using acyclic.induct_below with
  | step n ih =>
    intro conditional trace evaluates
    have child : ∀ c ∈ t.children n, ∀ conditional trace, t.Evaluates c trace →
        t.Accounts c conditional trace := fun c hc => ih c (.child hc)
    cases evaluates with
    | silent silent => exact accounts_silent acyclic silent
    | condition branch turn =>
      refine accounts_inTurn acyclic (accessesOfOperand_branch branch) (fun c hc => ?_) turn
      exact child c (mem_children_of_condition? (by simpa using hc)) conditional
    | @short _ left right _ choice hc h =>
      have := accounts_choice acyclic choice hc (child left (by simp [hc]) conditional _ h)
        (accounts_skipped right)
      rwa [List.append_nil] at this
    | @both _ left right _ _ choice hc hl hr =>
      exact accounts_choice acyclic choice hc (child left (by simp [hc]) conditional _ hl)
        (child right (by simp [hc]) true _ hr)
    | @branch _ condition _ _ chosen _ _ hook hc choice hf hs =>
      have hm : chosen ∈ t.children n := by rcases choice with rfl | rfl <;> simp [hc]
      exact accounts_conditional acyclic hook hc choice
        (child condition (by simp [hc]) conditional _ hf) (child chosen hm true _ hs)
    | @assign _ _ value _ _ _ assign hc named h =>
      exact accounts_assign acyclic assign hc named (child value (by simp [hc]) conditional _ h)
    | assignTo assign hc unnamed turn =>
      exact accounts_assignTo acyclic assign hc unnamed (child · · conditional) turn
    | declare declaration declares =>
      exact accounts_declaration acyclic declaration
        (fun c hc d hd => ih d (.deeper hc (.child hd)) conditional) declares
    | ended iteration => exact accounts_ended acyclic laidOut iteration plain
    | fill iteration hs named => exact accounts_fill acyclic laidOut iteration hs named
    | @fillTo _ slot _ iteration hs unnamed h =>
      exact accounts_fillTo acyclic laidOut iteration hs unnamed (child slot · conditional _ h)
    | name name => exact accounts_name acyclic name
    | operands plain turn =>
      exact accounts_inTurn acyclic (accessesOfOperand_plain plain) (child · · conditional) turn

end Acyclic
end Tree
end Liveness
