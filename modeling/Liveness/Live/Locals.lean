import Liveness.Program

/-! The variables of a function.

A function owns its parameters, what its body declares, and what blocks inside the body
declare, but nothing of the functions nested in it. Its variables are numbered in that
order, a name once: where a block declares a name again, both share the first number. -/
namespace Liveness

/-- The variables of a function by name; their positions are their numbers. -/
abbrev VariableIndex := Table String VarId

namespace ScopeForest

/-- The scopes of a function, given those of its parameters and of its body. -/
def localScopes (f : ScopeForest) (fs bs : ScopeId) : List ScopeId := fs :: f.within bs

def localVars (f : ScopeForest) (fs bs : ScopeId) : List VarId :=
  (f.localScopes fs bs).flatMap f.varsOf

/-- The numbering of a function's variables. -/
def localIndex (f : ScopeForest) (fs bs : ScopeId) : VariableIndex :=
  (f.localVars fs bs).foldl (fun t v => t.insertNew (f.var v).name v) .empty

end ScopeForest
end Liveness
