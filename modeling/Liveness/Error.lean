import Liveness.Scope.Basic

/-! Why an analysis gives no result. -/
namespace Liveness

/-- What passes leave behind for a function. -/
inductive ResultKind where
  | graph
  | escaped
  | live
  | other (name : String)
deriving DecidableEq, Repr

def ResultKind.label : ResultKind → String
  | .graph => "ControlFlowGraph"
  | .escaped => "EscapedLocals"
  | .live => "LiveVariablesResult"
  | .other name => name

inductive AnalysisError where
  | notNormalized
  | notAFunctionScope (found : ScopeKind)
  | notABodyScope (found : ScopeKind)
  | expectedName (found : String)
  | tooManyVariables (count max : Nat)
  | stepLimit (max : Nat)
  | missingScope (function : String)
  | missingResult (kind : ResultKind)
  | unregisteredPass (name : String)
  | noScope (id : ScopeId)
  | noVariable (id : VarId)
  /-- A graph is entered at a point it does not have. -/
  | missingEntry
  /-- A pass waits for itself. -/
  | cyclicPass (name : String)
deriving DecidableEq, Repr

def AnalysisError.message : AnalysisError → String
  | .notNormalized => "Live variable analysis requires a normalized program."
  | .notAFunctionScope found => "Expected a function scope, found a " ++ found.label ++ " scope."
  | .notABodyScope found => "Expected a function block scope, found a " ++ found.label ++ " scope."
  | .expectedName found => "Expected a NAME node, found " ++ found ++ "."
  | .tooManyVariables count max =>
    "Function declares " ++ toString count ++ " variables, at most " ++ toString max ++
      " can be analyzed."
  | .stepLimit max => "Dataflow analysis did not converge within " ++ toString max ++ " steps."
  | .missingScope function => "No scopes have been created for function \"" ++ function ++ "\"."
  | .missingResult kind => "Analysis result " ++ kind.label ++ " unavailable for function."
  | .unregisteredPass name => "Unregistered pass \"" ++ name ++ "\"."
  | .noScope id => "There is no scope " ++ toString id ++ "."
  | .noVariable id => "There is no variable " ++ toString id ++ "."
  | .missingEntry => "The graph is entered at a missing point."
  | .cyclicPass name => "Pass \"" ++ name ++ "\" depends on itself."

/-- The scope of a number that should name one. -/
def ScopeForest.existing (f : ScopeForest) (s : ScopeId) : Except AnalysisError Scope :=
  match f.scope? s with
  | some scope => .ok scope
  | none => .error (.noScope s)

end Liveness
