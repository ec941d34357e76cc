import Liveness.Event
import Liveness.Scope.Create

/-! A program: its syntax, the scopes laid over it, and whether it is in normal form.

In normal form each declaration declares one name and no name is declared twice in a
function. The flag is a promise of whoever built the program; nothing here checks it. -/
namespace Liveness

structure Program where
  tree : Tree := {}
  scopes : ScopeForest := {}
  normalized : Bool := false
deriving DecidableEq, Repr

namespace Program

/-- The innermost scope around a node. -/
def closestScope? (p : Program) (n : NodeId) : Option ScopeId :=
  (p.tree.ancestors n).findSome? p.scopes.at?

/-- Lays scopes over the program below `root`. -/
def createScopes (p : Program) (root : NodeId) : Except BindError ScopeId × Program :=
  let (result, scopes) := p.scopes.create p.tree root
  (result, { p with scopes })

/-- The scope of a function's parameters and the scope of its body. -/
def functionScopes (p : Program) (f : NodeId) : Except AnalysisError (ScopeId × ScopeId) :=
  match p.scopes.at? f, (p.tree.functionBody? f).bind p.scopes.at? with
  | some fs, some bs => .ok (fs, bs)
  | _, _ => .error (.missingScope (p.tree.functionTitle f))

end Program
end Liveness
