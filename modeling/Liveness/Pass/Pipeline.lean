import Liveness.Pass.Basic

/-! Running passes in the order their dependencies ask for.

A pipeline knows passes by name, keeps their results, and remembers which pass is done for
which function, so that each runs at most once per function however often it is asked for.
A pass that fails is not done; what ran before it is. Every invocation of a pass is
recorded with what it logged. -/
namespace Liveness

structure Pipeline where
  passes : Table String Pass := .empty
  results : Results := {}
  limits : Limits := {}
  /-- The passes that succeeded, with the function. -/
  done : List (String × NodeId) := []

/-- A pass run on a function. -/
structure Invocation where
  pass : String
  function : NodeId
  events : List Event
  succeeded : Bool

/-- The log of invocations. -/
def Invocation.log (history : List Invocation) : List Event :=
  history.flatMap fun i => .running i.pass :: i.events

namespace Pipeline

def isRegistered (l : Pipeline) (name : String) : Bool := l.passes.contains name

/-- Adds a pass, unless one of its name is there. -/
def register? (l : Pipeline) (pass : Pass) : Option Pipeline :=
  if l.isRegistered pass.name then none
  else some { l with passes := l.passes.push pass.name pass }

/-- Adds passes up to the first that is there already; tells whether there was none. -/
def registerAll (l : Pipeline) : List Pass → Bool × Pipeline
  | [] => (true, l)
  | pass :: rest =>
    match l.register? pass with
    | some l => l.registerAll rest
    | none => (false, l)

/-- Supplies the graph of a function. -/
def addGraph (l : Pipeline) (function : NodeId) (g : FlowGraph) : Pipeline :=
  { l with results := l.results.add function (.graph g) }

/-! ### Running -/

/-- A pipeline at work, with its invocations so far, last first. -/
structure Session where
  pipeline : Pipeline
  history : List Invocation := []

/-- A step of a pipeline that may fail; what it did before failing stays. -/
abbrev Action (α : Type) := ExceptT AnalysisError (StateM Session) α

/-- Runs a pass whose dependencies are done, and keeps its result. -/
def invoke (p : Program) (function : NodeId) (pass : Pass) : Action Unit :=
  ExceptT.mk fun s =>
    let outcome := pass.runner p s.pipeline.limits s.pipeline.results function
    let record (succeeded : Bool) : Invocation :=
      { pass := pass.name, function, events := outcome.events, succeeded }
    match outcome.result with
    | .error e => (.error e, { s with history := record false :: s.history })
    | .ok result =>
      (.ok (),
        { pipeline := { s.pipeline with
            results := s.pipeline.results.add function result
            done := (pass.name, function) :: s.pipeline.done }
          history := record true :: s.history })

/-- Runs a pass after its dependencies, unless it is done. The depth bounds how far
dependencies are followed. -/
def runPass (p : Program) (function : NodeId) : Nat → String → Action Unit
  | 0, name => throw (.cyclicPass name)
  | depth + 1, name => do
    let s ← get
    match s.pipeline.passes.find? name with
    | none => throw (.unregisteredPass name)
    | some pass =>
      if (name, function) ∈ s.pipeline.done then return
      pass.needs.forM (runPass p function depth)
      invoke p function pass

/-- Runs the named passes on a function. Unless a pass waits for itself, dependencies go no
deeper than there are passes, and one more for a name without a pass. -/
def run (l : Pipeline) (p : Program) (function : NodeId) (names : List String) :
    Except AnalysisError Unit × Session :=
  (names.forM (runPass p function (l.passes.size + 1))).run { pipeline := l }

/-! ### Text -/

/-- The passes with their summaries, names padded to sixteen characters. -/
def help (l : Pipeline) : String :=
  let line (pass : Pass) : String :=
    "  " ++ pass.name ++ String.ofList (List.replicate (16 - pass.name.length) ' ') ++ " - " ++
      pass.summary
  "Valid pass names are:\n\n" ++ "\n".intercalate (l.passes.values.map line)

end Pipeline
end Liveness
