import Liveness.BitSet
import Liveness.Decimal.Positional
import Liveness.Decimal.Shortest
import Liveness.Error
import Liveness.Event
import Liveness.Graph.Basic
import Liveness.Graph.PostOrder
import Liveness.Limits.Basic
import Liveness.Limits.Json
import Liveness.Live.Access
import Liveness.Live.Analysis
import Liveness.Live.Escape
import Liveness.Live.Locals
import Liveness.Pass.Basic
import Liveness.Pass.Pipeline
import Liveness.Program
import Liveness.Scope.Basic
import Liveness.Scope.Create
import Liveness.Scope.Declaration
import Liveness.Solver.Basic
import Liveness.Solver.Counter
import Liveness.Solver.GenKill
import Liveness.Solver.Problem
import Liveness.Table
import Liveness.Tree.Basic
import Liveness.Tree.Build
import Liveness.Tree.Descend
import Liveness.Tree.Kind
import Liveness.Tree.Query
import Liveness.Proofs.BitSet
import Liveness.Proofs.BitSet.Denotation
import Liveness.Proofs.Graph.Construction
import Liveness.Proofs.Graph.Index
import Liveness.Proofs.Graph.Loop
import Liveness.Proofs.Graph.Order
import Liveness.Proofs.Graph.PostOrder
import Liveness.Proofs.Live.Acyclic
import Liveness.Proofs.Live.Alias
import Liveness.Proofs.Live.Bound
import Liveness.Proofs.Live.Contract
import Liveness.Proofs.Live.Covering
import Liveness.Proofs.Live.Escape
import Liveness.Proofs.Live.Evaluation
import Liveness.Proofs.Live.Execution
import Liveness.Proofs.Live.Keeping
import Liveness.Proofs.Live.Locals
import Liveness.Proofs.Live.Monotone
import Liveness.Proofs.Live.Numbering
import Liveness.Proofs.Live.Origin
import Liveness.Proofs.Live.Path
import Liveness.Proofs.Live.Untracked
import Liveness.Proofs.Pass.Direct
import Liveness.Proofs.Scope.Acceptance
import Liveness.Proofs.Scope.Acyclic
import Liveness.Proofs.Scope.Addition
import Liveness.Proofs.Scope.Arena
import Liveness.Proofs.Scope.Chain
import Liveness.Proofs.Scope.Forest
import Liveness.Proofs.Scope.Lexical
import Liveness.Proofs.Scope.Overlay
import Liveness.Proofs.Scope.Ownership
import Liveness.Proofs.Scope.Preorder
import Liveness.Proofs.Solver.Bound
import Liveness.Proofs.Solver.Cover
import Liveness.Proofs.Solver.Equations
import Liveness.Proofs.Solver.Least
import Liveness.Proofs.Solver.Limit
import Liveness.Proofs.Solver.Run
import Liveness.Proofs.Solver.Sweep
import Liveness.Proofs.Table
import Liveness.Proofs.Tree.Acyclic
import Liveness.Proofs.Tree.Construction
import Liveness.Proofs.Tree.Shape
