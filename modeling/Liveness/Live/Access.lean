import Liveness.Error
import Liveness.Tree.Descend
import Liveness.Tree.Query

/-! What a node does to variables when control passes it.

A point of the graph stands for what its node evaluates itself: a loop for its condition,
a block for nothing, since the statements inside are points of their own. The accesses of
a node are listed in the order of evaluation. Writes that may not happen whenever control
passes are left out, so that every write listed is certain; reads are all listed.

A node is looked at in one of four roles. Most are operands; the names of a declaration
are bindings, with their initial value as a child; the first child of an iteration is its
target, and what a declaration there declares is the slot the iteration fills. -/
namespace Liveness

inductive Access where
  /-- A name is evaluated. -/
  | use (name : String)
  /-- The old value of a target is read. -/
  | read (name : String)
  /-- A target is written. -/
  | write (name : String)
deriving DecidableEq, Repr

/-- How a node is looked at by the one above it. -/
inductive Role where
  | operand
  | binding
  | target
  | slot
deriving DecidableEq, Repr

namespace Access

/-- The accesses of a node, or why it has none. -/
abbrev Outcome := Except AnalysisError (List Access)

/-- The accesses of a node in a role. The flag says that the node may not be evaluated, or
not to its end, whenever control passes. -/
abbrev Walk := Role → Bool → Outcome

/-- One node after the other; the first failure is the failure of all. -/
def inOrder (visit : NodeId → Outcome) : List NodeId → Outcome
  | [] => .ok []
  | n :: ns => do
    let first ← visit n
    let rest ← inOrder visit ns
    return first ++ rest

/-- A write, unless it may not happen. -/
def writes (conditional : Bool) (name : String) : List Access :=
  if conditional then [] else [.write name]

/-- A plain assignment writes its target; any other reads it first. -/
def assignment (op : AssignOp) (name : String) (value : Outcome) (conditional : Bool) :
    Outcome := do
  let old := if op = .assign then [] else [.read name]
  let accesses ← value
  return old ++ accesses ++ writes conditional name

end Access

namespace Tree
open Access

/-- What is evaluated first is evaluated as often as the node, and the rest maybe less. -/
def accessesOfChoice (visit : NodeId → Walk) (conditional : Bool) (first rest : List NodeId) :
    Outcome := do
  let before ← inOrder (visit · .operand conditional) first
  let after ← inOrder (visit · .operand true) rest
  return before ++ after

def accessesOfOperand (t : Tree) (below : NodeId → Walk) (n : NodeId) (conditional : Bool) :
    Outcome :=
  let children := t.children n
  let operands (ns : List NodeId) : Outcome := inOrder (below · .operand conditional) ns
  match t.kind n with
  | .root | .script | .block | .function => .ok []
  | .ifStmt | .whileLoop | .doLoop | .forLoop => operands (t.condition? n).toList
  | .forIn | .forOf => inOrder (below · .target conditional) (children.take 1)
  | .varDecl | .letDecl | .constDecl => inOrder (below · .binding conditional) children
  | .and | .or => accessesOfChoice below conditional (children.take 1) ((children.drop 1).take 1)
  | .conditional => accessesOfChoice below conditional (children.take 1) (children.drop 1)
  | .name text => .ok [.use text]
  | .assign op =>
    match children with
    | target :: value :: _ =>
      match t.name? target with
      | some name => assignment op name (below value .operand conditional) conditional
      | none => operands children
    | _ => operands children
  | _ => operands children

def accessesOfBinding (t : Tree) (below : NodeId → Walk) (n : NodeId) (conditional : Bool) :
    Outcome :=
  match t.name? n, t.children n with
  | some _, [] => .ok []
  | some name, value :: _ => do
    let accesses ← below value .operand conditional
    return accesses ++ writes conditional name
  | none, _ => .error (.expectedName (t.kind n).label)

/-- The iteration may end before it fills its slot, so the old value counts as read. -/
def accessesOfSlot (t : Tree) (below : NodeId → Walk) (n : NodeId) (conditional : Bool) :
    Outcome :=
  match t.name? n with
  | some name => .ok [.read name, .write name]
  | none => t.accessesOfOperand below n conditional

def accessesOfTarget (t : Tree) (below : NodeId → Walk) (n : NodeId) (conditional : Bool) :
    Outcome :=
  if (t.kind n).isDeclaration then
    match (t.children n).getLast? with
    | some slot => below slot .slot conditional
    | none => .error (.expectedName (t.kind n).label)
  else t.accessesOfSlot below n conditional

def accessStep (t : Tree) : Step Walk := fun below n role conditional =>
  match role with
  | .operand => t.accessesOfOperand below n conditional
  | .binding => t.accessesOfBinding below n conditional
  | .target => t.accessesOfTarget below n conditional
  | .slot => t.accessesOfSlot below n conditional

/-- The accesses of a node in a role. -/
def accessesAs (t : Tree) (n : NodeId) : Walk :=
  t.descend t.accessStep (fun _ _ => .ok []) n

/-- The accesses of a node when control passes it, in order. -/
def accesses (t : Tree) (n : NodeId) (conditional : Bool) : Outcome :=
  t.accessesAs n .operand conditional

end Tree
end Liveness
