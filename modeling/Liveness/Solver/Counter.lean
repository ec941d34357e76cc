import Liveness.Solver.Basic

/-! Counting along paths: the simplest problem whose values grow at every point.

Each point adds a fixed amount until a cap is reached, and the larger of two counts wins.
Around a cycle the count climbs to the cap, so a large cap makes a run as long as one
likes. -/
namespace Liveness.Solver

def counter (direction : Direction) (boundary initial step cap : Nat) : Problem Nat where
  direction
  boundary
  initial
  join xs := xs.foldl max 0
  flow _ x := .ok (min (x + step) (max cap x))

/-- A count as it is logged. -/
def countText (n : Nat) : String := "Count(" ++ toString n ++ ")"

end Liveness.Solver
