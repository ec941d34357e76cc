import Liveness.Limits.Basic
import Liveness.Live.Access
import Liveness.Live.Escape
import Liveness.Solver.GenKill

/-! Live variables.

A variable is live at a place if some path from there reads it before writing it. Each
point of the graph contributes the variables it reads and those it certainly writes, and
a backward bit-vector problem does the rest.

Escaped variables are not tracked, and a name counts as escaped if any variable of that
name is. Reading the alias of all arguments reads every parameter, and since the alias can
be kept and read again later, one such read anywhere in the graph makes all parameters
escape. -/
namespace Liveness

/-- The name under which a function sees all its arguments. -/
def argumentsAlias : String := "arguments"

/-- A function ready to be analysed. -/
structure Analysis where
  program : Program
  graph : FlowGraph
  functionScope : ScopeId
  bodyScope : ScopeId
  locals : VariableIndex
  escaped : Escaped
  /-- Some point reads the alias of all arguments. -/
  aliasRead : Bool := false

/-- The live variables of a function. -/
structure LiveResult where
  solution : Solver.Solution BitSet
  locals : VariableIndex
  escaped : Escaped

namespace Analysis

/-- The number of variables. -/
def width (a : Analysis) : Nat := a.locals.size

/-- Whether a name means all arguments: the function declares no variable of that name
itself. -/
def isAlias (a : Analysis) (name : String) : Bool :=
  name == argumentsAlias &&
    (a.program.scopes.ownVar? a.functionScope name).isNone &&
    (a.program.scopes.ownVar? a.bodyScope name).isNone

def isEscaped (a : Analysis) (name : String) : Bool :=
  a.escaped.vars.any fun v => (a.program.scopes.var v).name == name

/-- The number of a name, if it is a variable of the function that does not escape. -/
def tracked? (a : Analysis) (name : String) : Option Nat :=
  if a.isEscaped name then none else a.locals.idxOf? name

/-- The variable that an access reads. -/
def readBy? (a : Analysis) : Access → Option Nat
  | .use name => if a.isAlias name then none else a.tracked? name
  | .read name => a.tracked? name
  | .write _ => none

/-- The variable that an access writes. -/
def writtenBy? (a : Analysis) : Access → Option Nat
  | .write name => a.tracked? name
  | _ => none

def readsAlias (a : Analysis) : Access → Bool
  | .use name => a.isAlias name
  | _ => false

/-- The set of the given numbers. -/
def setOf (a : Analysis) (members : List Nat) : BitSet :=
  members.foldl BitSet.insert (.empty a.width)

/-- What a list of accesses reads and writes. -/
def summary (a : Analysis) (accesses : List Access) : Solver.GenKill where
  gen := a.setOf (accesses.filterMap a.readBy?)
  kill := a.setOf (accesses.filterMap a.writtenBy?)

/-- What a point reads and certainly writes. If control can leave it by an exception no
write is certain. -/
def effect (a : Analysis) (i : Nat) : Except AnalysisError Solver.GenKill :=
  match a.graph.node? i with
  | some n => (a.program.tree.accesses n (a.graph.throws i)).map a.summary
  | none => .ok (a.summary [])

/-- Whether some point reads the alias of all arguments. The first one ends the search. -/
def findsAlias (a : Analysis) : Except AnalysisError Bool :=
  (a.graph.points.toList.filterMap Point.node?).anyM fun n =>
    (a.program.tree.accesses n false).map fun accesses => accesses.any a.readsAlias

/-! ### Setting up -/

/-- The variables of a function that can be analysed within the limits. -/
def locals? (p : Program) (fs bs : ScopeId) (limits : Limits) :
    Except AnalysisError VariableIndex := do
  if !p.normalized then throw .notNormalized
  let function ← p.scopes.existing fs
  if function.kind ≠ .function then throw (.notAFunctionScope function.kind)
  let body ← p.scopes.existing bs
  if body.kind ≠ .body then throw (.notABodyScope body.kind)
  let locals := p.scopes.localIndex fs bs
  if limits.maxVariables < locals.size then
    throw (.tooManyVariables locals.size limits.maxVariables)
  return locals

/-- The parameters of the function. -/
def parameters (a : Analysis) : List VarId :=
  (a.program.scopes.varsOf a.functionScope).filter fun v => (a.program.scopes.var v).kind == .param

/-- Sets up the analysis of a graph, given the variables known to escape. -/
def prepare (p : Program) (g : FlowGraph) (fs bs : ScopeId) (escaped : Escaped) (limits : Limits) :
    Except AnalysisError Analysis := do
  let locals ← locals? p fs bs limits
  if let some v := escaped.vars.find? fun v => p.scopes.vars.size ≤ v then throw (.noVariable v)
  let a : Analysis :=
    { program := p, graph := g, functionScope := fs, bodyScope := bs, locals, escaped }
  if ← a.findsAlias then
    return { a with escaped := a.escaped.insertAll a.parameters, aliasRead := true }
  else return a

/-- The log of setting up. -/
def prepareEvents (a : Analysis) : List Event :=
  (if a.aliasRead then [.aliasRead] else []) ++
    [.started a.width a.escaped.size a.graph.size]

/-! ### Solving -/

def problem (a : Analysis) : Problem BitSet :=
  Solver.genKill .backward a.width (.empty a.width) (.empty a.width) .any a.effect

def run (a : Analysis) (limit : Nat) : Solver.Run BitSet := Solver.solve a.problem a.graph limit

/-- The live variables at every point. -/
def liveVariables (a : Analysis) (limit : Nat) : Logged LiveResult :=
  let run := a.run limit
  let events := run.events .backward a.graph.size BitSet.text
  match run.result with
  | .ok solution =>
    ⟨events ++ [.computed solution.steps],
      .ok { solution, locals := a.locals, escaped := a.escaped }⟩
  | .error e => ⟨events, .error e⟩

end Analysis

namespace LiveResult

/-- The variables live before a point. -/
def liveIn? (r : LiveResult) (i : Nat) : Option BitSet := r.solution.before? i

/-- The variables live after a point. -/
def liveOut? (r : LiveResult) (i : Nat) : Option BitSet := r.solution.after? i

/-- Whether a name is live before a point. Unknown and escaped names never are. -/
def isLiveBefore (r : LiveResult) (i : Nat) (name : String) : Bool :=
  (r.locals.idxOf? name).any fun k => (r.liveIn? i).any (·.contains k)

/-- Whether a name is live after a point. -/
def isLiveAfter (r : LiveResult) (i : Nat) (name : String) : Bool :=
  (r.locals.idxOf? name).any fun k => (r.liveOut? i).any (·.contains k)

/-! ### Text -/

/-- The names of the members of a set. -/
def names (r : LiveResult) (s : BitSet) : String :=
  "\x7b" ++ ", ".intercalate (s.toList.filterMap fun k => (r.locals.entry? k).map (·.1)) ++ "\x7d"

/-- The line of a point. -/
def reportLine? (r : LiveResult) (p : Program) (i : Nat) (point : Point) : Option String := do
  let before ← r.liveIn? i
  let after ← r.liveOut? i
  return "\tn" ++ toString i ++ " " ++ point.label p.tree ++ ": in " ++ r.names before ++ " out " ++
    r.names after ++ "\n"

/-- The result as text, if it has values for every point of the graph. -/
def report? (r : LiveResult) (p : Program) (title : String) (g : FlowGraph) : Option String := do
  let escaped :=
    if r.escaped.vars.isEmpty then "none"
    else ", ".intercalate (r.escaped.vars.map fun v => (p.scopes.var v).name)
  let lines ← (g.points.toList.zipIdx).mapM fun (point, i) => r.reportLine? p i point
  return "Live variables for " ++ title ++ " [" ++ ", ".intercalate r.locals.keys ++ "]:\n" ++
    "\tescaped: " ++ escaped ++ "\n" ++ String.join lines

end LiveResult
end Liveness
