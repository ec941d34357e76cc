import Liveness.Event
import Liveness.Solver.Problem

/-! Solving dataflow problems by a worklist.

Every point starts on the worklist with the initial value on both sides. The solver takes
the pending point that comes first in the schedule, gathers what arrives there, lets it
flow through, and if what leaves has changed puts the points that read it back on the list.
It stops when the list is empty; a limit on the number of visits makes sure that it stops
at all.

A run keeps a record of its visits, and counts them by its length. Which points are visited and
what they find does not depend on it: it is there to tell what happened. -/
namespace Liveness.Solver
variable {L : Type u}

/-- One visit to a point. -/
structure Visit (L : Type u) where
  point : Nat
  /-- How many values were joined; a single one is taken over as it is. -/
  joined : Nat
  /-- The values of the point after the visit, if what leaves it changed. -/
  changed : Option (Cell L)

/-- The order of visits, and each point's place in it. -/
structure Schedule where
  order : Array Nat
  rank : Array Nat

def Schedule.of (o : PostOrder) (d : Direction) : Schedule :=
  let order := o.schedule d
  ⟨order.toArray, ((List.range order.length).map order.idxOf).toArray⟩

/-- A solver under way. -/
structure Progress (L : Type u) where
  cells : Array (Cell L)
  /-- The places of the points to visit, in ascending order. -/
  pending : List Nat
  /-- The visits made, last first. -/
  visits : List (Visit L) := []

/-- The values computed, and the number of visits that took. -/
structure Solution (L : Type u) where
  direction : Direction
  cells : Array (Cell L)
  steps : Nat

def Solution.before? (s : Solution L) (i : Nat) : Option L :=
  s.cells[i]?.map (Cell.before s.direction)

def Solution.after? (s : Solution L) (i : Nat) : Option L :=
  s.cells[i]?.map (Cell.after s.direction)

/-- A finished run: its visits in order, and what came of it. -/
structure Run (L : Type u) where
  visits : List (Visit L)
  result : Except AnalysisError (Solution L)

/-! ### One visit -/

/-- Adds a place to an ascending list of places. -/
def enqueue (r : Nat) : List Nat → List Nat
  | [] => [r]
  | q :: rest =>
    if r < q then r :: q :: rest
    else if r = q then q :: rest
    else q :: enqueue r rest

/-- The values of a point. -/
def cell (p : Problem L) (cells : Array (Cell L)) (i : Nat) : Cell L :=
  cells[i]?.getD ⟨p.initial, p.initial⟩

/-- The values that neighbours send to a point. Nothing is sent to the origin. -/
def inputs (p : Problem L) (g : FlowGraph) (cells : Array (Cell L)) (i : Nat) : List L :=
  if i = g.origin p.direction then []
  else (g.feeders p.direction i).map fun j => (cell p cells j).leaving

/-- What arrives at a point. Where no neighbour sends anything this stays as it is. -/
def gather (p : Problem L) (g : FlowGraph) (cells : Array (Cell L)) (i : Nat) : L :=
  match inputs p g cells i with
  | [] => (cell p cells i).arriving
  | [x] => x
  | xs => p.join xs

/-- How many values are joined to get what arrives at a point. -/
def joinCount (p : Problem L) (g : FlowGraph) (cells : Array (Cell L)) (i : Nat) : Nat :=
  match inputs p g cells i with
  | [] | [_] => 0
  | xs => xs.length

/-- The places to visit after what leaves a point has changed. -/
def wake (p : Problem L) (g : FlowGraph) (schedule : Schedule) (i : Nat) (pending : List Nat) :
    List Nat :=
  (g.readers p.direction i).foldl (fun q j => enqueue (schedule.rank[j]?.getD 0) q) pending

/-- What comes of a step. -/
inductive Next (L : Type u) where
  /-- No point is pending. -/
  | finished
  /-- The flow through a point failed. -/
  | failed (visit : Visit L) (error : AnalysisError)
  | moved (progress : Progress L)

/-- Visits the pending point that comes first. -/
def step [BEq L] (p : Problem L) (g : FlowGraph) (schedule : Schedule) (s : Progress L) : Next L :=
  match s.pending with
  | [] => .finished
  | r :: rest =>
    let i := schedule.order[r]?.getD 0
    let arriving := gather p g s.cells i
    let joined := joinCount p g s.cells i
    match p.flow i arriving with
    | .error e => .failed ⟨i, joined, none⟩ e
    | .ok leaving =>
      let cells := s.cells.setIfInBounds i ⟨arriving, leaving⟩
      if leaving == (cell p s.cells i).leaving then
        .moved { cells, pending := rest, visits := ⟨i, joined, none⟩ :: s.visits }
      else
        .moved {
          cells
          pending := wake p g schedule i rest
          visits := ⟨i, joined, some ⟨arriving, leaving⟩⟩ :: s.visits }

/-! ### A whole run -/

/-- All points pending, and at the origin what is known there. -/
def start (p : Problem L) (g : FlowGraph) : Progress L where
  cells := (Array.replicate g.size ⟨p.initial, p.initial⟩).modify (g.origin p.direction)
    fun c => { c with arriving := p.boundary }
  pending := List.range g.size

/-- The run that a solver with no point pending has made. -/
def Progress.finish (p : Problem L) (s : Progress L) : Run L :=
  ⟨s.visits.reverse, .ok ⟨p.direction, s.cells, s.visits.length⟩⟩

/-- Takes steps until no point is pending, at most `budget` of them. -/
def iterate [BEq L] (p : Problem L) (g : FlowGraph) (schedule : Schedule) (limit : Nat) :
    Nat → Progress L → Run L
  | 0, s =>
    if s.pending.isEmpty then s.finish p else ⟨s.visits.reverse, .error (.stepLimit limit)⟩
  | budget + 1, s =>
    match step p g schedule s with
    | .finished => s.finish p
    | .failed v e => ⟨(v :: s.visits).reverse, .error e⟩
    | .moved s => iterate p g schedule limit budget s

/-- Solves a problem on a graph within a limit on the number of visits. -/
def solve [BEq L] (p : Problem L) (g : FlowGraph) (limit : Nat) : Run L :=
  match g.postOrder? with
  | none => ⟨[], .error .missingEntry⟩
  | some o => iterate p g (.of o p.direction) limit limit (start p g)

/-! ### What happened -/

/-- The calls a run made into the problem: a point's number for each flow, and before it
the negated number of values for each join. -/
def Run.calls (r : Run L) : List Int :=
  r.visits.flatMap fun v =>
    (if v.joined = 0 then [] else [-(v.joined : Int)]) ++ [(v.point : Int)]

/-- The log of a run. -/
def Run.events (r : Run L) (d : Direction) (points : Nat) (render : L → String) : List Event :=
  let changes := r.visits.filterMap fun v => v.changed.map fun c =>
    .changed v.point (render (c.before d)) (render (c.after d))
  let ending : List Event :=
    match r.result with
    | .ok s => [.converged s.steps points]
    | .error (.stepLimit max) => [.gaveUp max]
    | .error _ => []
  changes ++ ending

end Liveness.Solver
