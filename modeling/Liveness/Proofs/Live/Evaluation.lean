import Mathlib.Data.List.Basic
import Liveness.Proofs.Live.Acyclic
import Liveness.Proofs.Tree.Layout

/-! Evaluation.

Evaluating a node reads and writes names in some order. Which evaluations there are is said
by rules, one for each way in which a construct can be evaluated: an operand may be skipped,
a branch chosen, an iteration over at once. The rules say nothing of values, so every choice
is open each time, and a node can have many evaluations. In a tree that is laid out it has at
least one (`exists_evaluates`). -/
namespace Liveness

/-- What evaluation does to a name. -/
inductive Action where
  | read (name : String)
  | write (name : String)
deriving DecidableEq, Repr

namespace Kind

/-- A construct that does nothing itself: what is inside is evaluated elsewhere. -/
def isSilent : Kind → Bool
  | root | script | block | function => true
  | _ => false

/-- An iteration over the keys or the elements of a value. -/
def isIteration : Kind → Bool
  | forIn | forOf => true
  | _ => false

/-- A branch or loop that evaluates its condition. -/
def isBranch : Kind → Bool
  | ifStmt | whileLoop | doLoop | forLoop => true
  | _ => false

/-- A construct that has no evaluation rule of its own. -/
def isPlain : Kind → Bool
  | root | script | block | function | ifStmt | whileLoop | doLoop | forLoop | forIn | forOf
  | varDecl | letDecl | constDecl | and | or | conditional | assign _ | name _ => false
  | _ => true

theorem eq_name_of_name? {k : Kind} {x : String} (h : k.name? = some x) : k = name x := by
  cases k with
  | name y => exact congrArg name (Option.some.inj h)
  | _ => cases h

theorem isStatement_of_isIteration {k : Kind} (h : k.isIteration = true) :
    k.isStatement = true := by
  cases k with
  | forIn | forOf => rfl
  | _ => cases h

theorem isStatement_of_isDeclaration {k : Kind} (h : k.isDeclaration = true) :
    k.isStatement = true := by
  cases k with
  | varDecl | letDecl | constDecl => rfl
  | _ => cases h

/-- The kinds by how they are evaluated. -/
theorem cases_by_rule (k : Kind) :
    k.isSilent = true ∨ k.isBranch = true ∨ k.isIteration = true ∨ k.isDeclaration = true ∨
      (k = and ∨ k = or) ∨ k = conditional ∨ (∃ x, k = name x) ∨ (∃ op, k = assign op) ∨
      k.isPlain = true := by
  cases k <;> simp [isSilent, isBranch, isIteration, isDeclaration, isPlain]

end Kind

namespace Tree

/-! ### Evaluation -/

/-- What an iteration fills: its target, or the name that is declared there. -/
def slot? (t : Tree) (n : NodeId) : Option NodeId :=
  (t.children n).head?.bind fun target =>
    if (t.kind target).isDeclaration then (t.children target).getLast? else some target

/-- Nodes are evaluated one after the other. -/
inductive InTurn (R : NodeId → List Action → Prop) : List NodeId → List Action → Prop
  | nil : InTurn R [] []
  | cons {n : NodeId} {ns : List NodeId} {first rest : List Action} :
      R n first → InTurn R ns rest → InTurn R (n :: ns) (first ++ rest)

/-- Names are declared one after the other; one that has an initial value is written. -/
inductive Declares (t : Tree) (R : NodeId → List Action → Prop) : List NodeId → List Action → Prop
  | nil : Declares t R [] []
  | bare {n : NodeId} {ns : List NodeId} {x : String} {rest : List Action} :
      t.name? n = some x → t.children n = [] → Declares t R ns rest → Declares t R (n :: ns) rest
  | initial {n value : NodeId} {ns : List NodeId} {x : String} {first rest : List Action} :
      t.name? n = some x → t.children n = [value] → R value first → Declares t R ns rest →
      Declares t R (n :: ns) (first ++ [.write x] ++ rest)

/-- What evaluating a node to its end can do, in order. -/
inductive Evaluates (t : Tree) : NodeId → List Action → Prop
  | silent {n : NodeId} : (t.kind n).isSilent = true → Evaluates t n []
  | condition {n : NodeId} {trace : List Action} :
      (t.kind n).isBranch = true → InTurn (Evaluates t) (t.condition? n).toList trace →
      Evaluates t n trace
  /-- The left operand settles the value. -/
  | short {n left right : NodeId} {trace : List Action} :
      t.kind n = .and ∨ t.kind n = .or → t.children n = [left, right] →
      Evaluates t left trace → Evaluates t n trace
  | both {n left right : NodeId} {first second : List Action} :
      t.kind n = .and ∨ t.kind n = .or → t.children n = [left, right] →
      Evaluates t left first → Evaluates t right second → Evaluates t n (first ++ second)
  | branch {n condition yes no chosen : NodeId} {first second : List Action} :
      t.kind n = .conditional → t.children n = [condition, yes, no] → chosen = yes ∨ chosen = no →
      Evaluates t condition first → Evaluates t chosen second → Evaluates t n (first ++ second)
  | assign {n target value : NodeId} {op : AssignOp} {x : String} {trace : List Action} :
      t.kind n = .assign op → t.children n = [target, value] → t.name? target = some x →
      Evaluates t value trace →
      Evaluates t n ((if op = .assign then [] else [.read x]) ++ trace ++ [.write x])
  /-- A target that is not a name is an operand like the value. -/
  | assignTo {n target value : NodeId} {op : AssignOp} {trace : List Action} :
      t.kind n = .assign op → t.children n = [target, value] → t.name? target = none →
      InTurn (Evaluates t) [target, value] trace → Evaluates t n trace
  | declare {n : NodeId} {trace : List Action} :
      (t.kind n).isDeclaration = true → Declares t (Evaluates t) (t.children n) trace →
      Evaluates t n trace
  /-- The iteration is over. -/
  | ended {n : NodeId} : (t.kind n).isIteration = true → Evaluates t n []
  | fill {n slot : NodeId} {x : String} :
      (t.kind n).isIteration = true → t.slot? n = some slot → t.name? slot = some x →
      Evaluates t n [.write x]
  | fillTo {n slot : NodeId} {trace : List Action} :
      (t.kind n).isIteration = true → t.slot? n = some slot → t.name? slot = none →
      Evaluates t slot trace → Evaluates t n trace
  | name {n : NodeId} {x : String} : t.kind n = .name x → Evaluates t n [.read x]
  | operands {n : NodeId} {trace : List Action} :
      (t.kind n).isPlain = true → InTurn (Evaluates t) (t.children n) trace → Evaluates t n trace

/-! ### Every node can be evaluated -/

variable {t : Tree}

theorem exists_inTurn {R : NodeId → List Action → Prop} {ns : List NodeId}
    (each : ∀ n ∈ ns, ∃ trace, R n trace) : ∃ trace, InTurn R ns trace := by
  induction ns with
  | nil => exact ⟨[], .nil⟩
  | cons n ns ih =>
    obtain ⟨first, hn⟩ := each n (by simp)
    obtain ⟨rest, hns⟩ := ih fun m hm => each m (by simp [hm])
    exact ⟨_, .cons hn hns⟩

/-- A name has at most one child. -/
theorem LaidOut.name_children (h : t.LaidOut) {n : NodeId} {x : String}
    (named : t.name? n = some x) : t.children n = [] ∨ ∃ value, t.children n = [value] := by
  have admits := h.admits n
  rw [Kind.eq_name_of_name? named] at admits
  match hc : t.children n with
  | [] => exact .inl rfl
  | [value] => exact .inr ⟨value, rfl⟩
  | _ :: _ :: _ => simp [hc, Kind.layout, Layout.admits, Place.fit] at admits

theorem exists_declares {R : NodeId → List Action → Prop} (laidOut : t.LaidOut) {ns : List NodeId}
    (names : ∀ n ∈ ns, ∃ x, t.name? n = some x)
    (each : ∀ n ∈ ns, ∀ c ∈ t.children n, ∃ trace, R c trace) : ∃ trace, Declares t R ns trace := by
  induction ns with
  | nil => exact ⟨[], .nil⟩
  | cons n ns ih =>
    obtain ⟨x, named⟩ := names n (by simp)
    obtain ⟨rest, hns⟩ := ih (fun m hm => names m (by simp [hm])) fun m hm => each m (by simp [hm])
    rcases laidOut.name_children named with none | ⟨value, one⟩
    · exact ⟨_, .bare named none hns⟩
    · obtain ⟨first, hv⟩ := each n (by simp) value (by simp [one])
      exact ⟨_, .initial named one hv hns⟩

theorem LaidOut.declared_name (h : t.LaidOut) {n : NodeId}
    (declaration : (t.kind n).isDeclaration = true) {c : NodeId} (hc : c ∈ t.children n) :
    ∃ x, t.name? c = some x := by
  obtain ⟨p, hp, holds⟩ := Layout.exists_place (h.admits n) _ (List.mem_map_of_mem hc)
  have : p = .name := by
    revert declaration hp
    cases t.kind n <;> simp [Kind.isDeclaration, Kind.layout, Layout.places]
  subst this
  exact Option.isSome_iff_exists.mp holds

/-- An iteration has a target, a value and a body, and the target is an operand or a
declaration. -/
theorem LaidOut.iteration_children (h : t.LaidOut) {n : NodeId}
    (iteration : (t.kind n).isIteration = true) :
    ∃ target value body, t.children n = [target, value, body] ∧
      ((t.kind target).isOperand = true ∨ (t.kind target).isDeclaration = true) := by
  have layout : (t.kind n).layout = .exactly [.target, .operand, .any] := by
    revert iteration
    cases t.kind n <;> simp [Kind.isIteration, Kind.layout]
  obtain ⟨target, value, body, hc⟩ := List.length_eq_three.mp (h.length_children layout)
  have admits := h.admits n
  rw [layout, hc] at admits
  simp only [List.map_cons, Layout.admits, Place.fit, Place.holds, Bool.and_eq_true,
    Bool.or_eq_true] at admits
  exact ⟨target, value, body, hc, admits.1⟩

/-- A slot without a name is the target itself, an operand. -/
theorem LaidOut.unnamed_slot (h : t.LaidOut) {n slot : NodeId}
    (iteration : (t.kind n).isIteration = true) (hs : t.slot? n = some slot)
    (unnamed : t.name? slot = none) : slot ∈ t.children n ∧ (t.kind slot).isOperand = true := by
  obtain ⟨target, value, body, hc, holds⟩ := h.iteration_children iteration
  rw [slot?, hc, List.head?_cons, Option.bind_some] at hs
  split at hs
  · next declaration =>
    obtain ⟨x, named⟩ := h.declared_name declaration (List.mem_of_getLast? hs)
    rw [unnamed] at named
    cases named
  · next ordinary =>
    obtain rfl := Option.some.inj hs
    exact ⟨by simp [hc], holds.resolve_right ordinary⟩

/-- **Every node can be evaluated.** -/
theorem exists_evaluates (acyclic : t.Acyclic) (laidOut : t.LaidOut) (n : NodeId) :
    ∃ trace, t.Evaluates n trace := by
  induction n using acyclic.induct_below with
  | step n ih =>
    have child : ∀ c ∈ t.children n, ∃ trace, t.Evaluates c trace := fun c hc => ih c (.child hc)
    rcases Kind.cases_by_rule (t.kind n) with
      silent | branch | iteration | declaration | choice | hook | ⟨x, name⟩ | ⟨op, assign⟩ | plain
    · exact ⟨[], .silent silent⟩
    · have condition : ∀ c ∈ (t.condition? n).toList, ∃ trace, t.Evaluates c trace :=
        fun c hc => child c (mem_children_of_condition? (by simpa using hc))
      obtain ⟨trace, h⟩ := exists_inTurn condition
      exact ⟨trace, .condition branch h⟩
    · exact ⟨[], .ended iteration⟩
    · obtain ⟨trace, h⟩ := exists_declares laidOut (fun c hc => laidOut.declared_name declaration hc)
        fun c hc d hd => ih d (.deeper hc (.child hd))
      exact ⟨trace, .declare declaration h⟩
    · have two : (t.children n).length = 2 := by
        rcases choice with h | h <;> exact laidOut.length_children (by rw [h]; rfl)
      obtain ⟨left, right, hc⟩ := List.length_eq_two.mp two
      obtain ⟨trace, h⟩ := child left (by simp [hc])
      exact ⟨trace, .short choice hc h⟩
    · have three : (t.children n).length = 3 := laidOut.length_children (by rw [hook]; rfl)
      obtain ⟨condition, yes, no, hc⟩ := List.length_eq_three.mp three
      obtain ⟨first, h⟩ := child condition (by simp [hc])
      obtain ⟨second, h'⟩ := child yes (by simp [hc])
      exact ⟨_, .branch hook hc (.inl rfl) h h'⟩
    · exact ⟨_, .name name⟩
    · have two : (t.children n).length = 2 := laidOut.length_children (by rw [assign]; rfl)
      obtain ⟨target, value, hc⟩ := List.length_eq_two.mp two
      cases named : t.name? target with
      | some x =>
        obtain ⟨trace, h⟩ := child value (by simp [hc])
        exact ⟨_, .assign assign hc named h⟩
      | none =>
        obtain ⟨trace, h⟩ := exists_inTurn fun c hm => child c (hc ▸ hm)
        exact ⟨trace, .assignTo assign hc named h⟩
    · obtain ⟨trace, h⟩ := exists_inTurn child
      exact ⟨trace, .operands plain h⟩

end Tree
end Liveness
