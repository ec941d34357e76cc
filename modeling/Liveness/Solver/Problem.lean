import Liveness.Error
import Liveness.Graph.PostOrder

/-! Dataflow problems.

A problem attaches two values to every point of a graph: one on the side where facts
arrive and one on the side where they leave. It says how a point turns the one into the
other, how the values of several neighbours are combined, and what is known where facts
enter the graph. Which neighbours feed a point depends only on the direction, so the rest
of the theory does not mention it: forwards facts arrive before a point, backwards after
it.

No law is asked of a problem here. A solver runs on any; that joining is a least upper
bound or that flow is monotone is for those who want more than a run. -/
namespace Liveness

structure Problem (L : Type u) where
  direction : Direction
  /-- What holds where facts enter the graph. -/
  boundary : L
  /-- What every other value starts from. -/
  initial : L
  join : List L → L
  /-- What leaves a point, from what arrives there. -/
  flow : Nat → L → Except AnalysisError L

/-- The values at a point. -/
structure Cell (L : Type u) where
  arriving : L
  leaving : L
deriving DecidableEq, Repr

namespace Cell
variable {L : Type u}

/-- The value before a point in the order of execution. -/
def before : Direction → Cell L → L
  | .forward, c => c.arriving
  | .backward, c => c.leaving

/-- The value after a point in the order of execution. -/
def after : Direction → Cell L → L
  | .forward, c => c.leaving
  | .backward, c => c.arriving

end Cell

namespace FlowGraph

/-- The points whose facts arrive at a point, one for each edge. -/
def feeders (g : FlowGraph) : Direction → Nat → List Nat
  | .forward => g.predecessors
  | .backward => g.successors

/-- The points at which the facts of a point arrive, one for each edge. -/
def readers (g : FlowGraph) : Direction → Nat → List Nat
  | .forward => g.successors
  | .backward => g.predecessors

/-- The point at which facts enter. -/
def origin (g : FlowGraph) : Direction → Nat
  | .forward => g.entry
  | .backward => exit

end FlowGraph
end Liveness
