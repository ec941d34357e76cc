import Liveness.Error

/-! What happens during an analysis, as it is logged.

Computations return what they did as data; an event is one thing worth a line of log, and
`Event.line` is that line. -/
namespace Liveness

inductive Event where
  | declared (name : String) (kind : VarKind) (scope : ScopeKind)
  | captured (name : String)
  | aliasRead
  | started (locals escaped points : Nat)
  /-- The state of a point changed; both sides as text. -/
  | changed (point : Nat) (before after : String)
  | gaveUp (limit : Nat)
  | converged (steps points : Nat)
  | computed (steps : Nat)
  | running (pass : String)
  | report (text : String)
deriving DecidableEq, Repr

def Event.line : Event → String
  | .declared name kind scope =>
    "TRACE declared variable name=" ++ name ++ " kind=" ++ kind.label ++ " scope=" ++ scope.label
  | .captured name => "TRACE local captured by a nested function name=" ++ name
  | .aliasRead => "DEBUG arguments alias read, all parameters escape"
  | .started locals escaped points =>
    "DEBUG starting live variable analysis variables=" ++ toString locals ++ " escaped=" ++
      toString escaped ++ " nodes=" ++ toString points
  | .changed point before after =>
    "TRACE flow state changed node=" ++ toString point ++ " state=FlowState \x7b entry: " ++ before ++
      ", exit: " ++ after ++ " \x7d"
  | .gaveUp limit => "WARN dataflow analysis did not converge max_steps=" ++ toString limit
  | .converged steps points =>
    "DEBUG dataflow analysis converged steps=" ++ toString steps ++ " nodes=" ++ toString points
  | .computed steps => "DEBUG live variables computed steps=" ++ toString steps
  | .running pass => "DEBUG running analysis pass=" ++ pass
  | .report text => "TRACE " ++ text

/-- An outcome with the log of how it came about. -/
structure Logged (α : Type u) where
  events : List Event
  result : Except AnalysisError α

/-- The declarations that one forest has beyond an earlier one. -/
def ScopeForest.declaredSince (f earlier : ScopeForest) : List Event :=
  (f.vars.toList.drop earlier.vars.size).map fun v =>
    .declared v.name v.kind (f.scope v.scope).kind

end Liveness
