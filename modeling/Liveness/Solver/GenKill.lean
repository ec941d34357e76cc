import Liveness.BitSet
import Liveness.Solver.Basic

/-! Bit-vector problems.

Each point removes some members from the set that arrives and adds others. Sets from
several neighbours are united, for what holds on some path, or intersected, for what holds
on all. -/
namespace Liveness.Solver

/-- What a point does to a set. -/
structure GenKill where
  gen : BitSet
  kill : BitSet
deriving DecidableEq, Repr

def GenKill.apply (e : GenKill) (s : BitSet) : BitSet := (s.diff e.kill).union e.gen

/-- How sets from several neighbours are combined. -/
inductive Meet where
  | any
  | all
deriving DecidableEq, Repr

def Meet.join (width : Nat) : Meet → List BitSet → BitSet
  | .any, sets => sets.foldl BitSet.union (.empty width)
  | .all, [] => .empty width
  | .all, s :: sets => sets.foldl BitSet.inter s

/-- A bit-vector problem with the given effect at each point. -/
def genKill (direction : Direction) (width : Nat) (boundary initial : BitSet) (meet : Meet)
    (effect : Nat → Except AnalysisError GenKill) : Problem BitSet where
  direction
  boundary
  initial
  join := meet.join width
  flow i s := (effect i).map fun e => e.apply s

end Liveness.Solver
