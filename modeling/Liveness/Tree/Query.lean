import Liveness.Tree.Basic

/-! Questions about the place of a node in its program. -/
namespace Liveness.Tree

/-- The expression that decides how a branch or loop goes on. -/
def condition? (t : Tree) (n : NodeId) : Option NodeId :=
  match t.kind n with
  | .ifStmt | .whileLoop => (t.children n).head?
  | .doLoop => (t.children n).getLast?
  | .forLoop => t.child? n 1
  | _ => none

/-- The nearest function at or above a node. -/
def enclosingFunction? (t : Tree) (n : NodeId) : Option NodeId :=
  (t.ancestors n).find? t.isFunction

def functionName? (t : Tree) (f : NodeId) : Option NodeId := t.child? f 0

def functionParams? (t : Tree) (f : NodeId) : Option NodeId := t.child? f 1

def functionBody? (t : Tree) (f : NodeId) : Option NodeId := t.child? f 2

/-- The identifier a function is shown by, empty if it has none. -/
def functionTitle (t : Tree) (f : NodeId) : String :=
  ((t.functionName? f).bind t.name?).getD ""

/-- A function with a name that stands among the statements of a script or block. -/
def isFunctionDeclaration (t : Tree) (n : NodeId) : Bool :=
  t.isFunction n &&
  (match (t.parent n).map t.kind with
    | some .script | some .block | some .root => true
    | _ => false) &&
  (match (t.functionName? n).bind t.name? with
    | some text => text != ""
    | none => false)

/-- A block that is the body of its parent function. -/
def isFunctionBlock (t : Tree) (n : NodeId) : Bool :=
  t.kind n == .block &&
  match t.parent n with
  | some p => t.isFunction p && t.functionBody? p == some n
  | none => false

end Liveness.Tree
