/-! How far analyses go before they give up. -/
namespace Liveness

structure Limits where
  /-- Functions with more variables than this are refused. -/
  maxVariables : Nat := 100
  /-- The solver stops after this many visits. -/
  maxSteps : Nat := 200000
deriving DecidableEq, Repr

end Liveness
