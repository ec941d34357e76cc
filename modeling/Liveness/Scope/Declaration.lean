import Liveness.Scope.Basic
import Liveness.Tree.Descend
import Liveness.Tree.Query

/-! What the nodes of a program declare.

`var` declarations belong to the body around them however deep they stand, though not
beyond a nested function; `let`, `const` and function declarations belong to the block
they stand in; a loop header owns the `let` or `const` in it. All this can be read off the
text alone. A place where a name should stand and something else does is listed as the
fault it is, so that everything before it still takes effect. -/
namespace Liveness

/-- A name declared at a node. -/
structure Decl where
  name : String
  node : NodeId
  kind : VarKind
deriving DecidableEq, Repr

namespace Tree

/-- What a node declares where a name has to stand. -/
def binding (t : Tree) (kind : VarKind) (expected : Expectation) (n : NodeId) :
    Except BindError Decl :=
  match t.name? n with
  | some name => .ok { name, node := n, kind }
  | none => .error (.malformed (t.kind n) expected)

/-- What a declaration statement declares. -/
def bindings (t : Tree) (kind : VarKind) (n : NodeId) : List (Except BindError Decl) :=
  (t.children n).map (t.binding kind .bindingName)

/-- What the list of a function's parameters declares. -/
def parameters (t : Tree) (params : NodeId) : List (Except BindError Decl) :=
  (t.children params).map (t.binding .param .parameterName)

def varDeclsStep (t : Tree) : Step (List NodeId) := fun below n =>
  match t.kind n with
  | .function => []
  | .varDecl => n :: (t.children n).flatMap below
  | _ => (t.children n).flatMap below

/-- The `var` declarations at and below a node that are outside nested functions. -/
def varDecls (t : Tree) (n : NodeId) : List NodeId := t.descend t.varDeclsStep [] n

/-- What a body declares by `var`, anywhere inside it. -/
def hoisted (t : Tree) (body : NodeId) : List (Except BindError Decl) :=
  let here := if t.kind body = .varDecl then [body] else []
  (here ++ (t.children body).flatMap t.varDecls).flatMap (t.bindings .plain)

/-- What a block declares by the statements directly in it. -/
def lexical (t : Tree) (block : NodeId) : List (Except BindError Decl) :=
  (t.children block).flatMap fun n =>
    match t.kind n with
    | .letDecl => t.bindings .mutable n
    | .constDecl => t.bindings .constant n
    | .function =>
      if t.isFunctionDeclaration n then
        (t.functionName? n).toList.map (t.binding .function .functionName)
      else []
    | _ => []

/-- What a script or the body of a function declares. -/
def bodyDecls (t : Tree) (body : NodeId) : List (Except BindError Decl) :=
  t.hoisted body ++ t.lexical body

/-- What a loop declares in its header. -/
def header (t : Tree) (loop : NodeId) : List (Except BindError Decl) :=
  match t.child? loop 0 with
  | some n =>
    match t.kind n with
    | .letDecl => t.bindings .mutable n
    | .constDecl => t.bindings .constant n
    | _ => []
  | none => []

/-- What a catch clause declares. -/
def caught (t : Tree) (clause : NodeId) : Except BindError Decl :=
  match t.child? clause 0 with
  | some n => t.binding .caught .caughtName n
  | none => .error (.malformed .catchClause .caughtName)

end Tree
end Liveness
