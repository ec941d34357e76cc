import Liveness.Live.Locals

/-! Variables that escape their function.

What the statements of a function do to a variable says little about it if code elsewhere
can touch it too. That is so when a nested function mentions it, when a catch clause binds
it, and when its name is visible outside by convention. -/
namespace Liveness

/-- The names that code outside can see. -/
abbrev Convention := String → Bool

namespace Convention

/-- No name is visible. -/
def nothing : Convention := fun _ => false

/-- Names of capital letters are visible. -/
def capitals : Convention := fun name => name.toList.all fun c => 'A' ≤ c && c ≤ 'Z'

/-- The listed names are visible. -/
def only (names : List String) : Convention := fun name => names.contains name

end Convention

/-- Variables without repetition, in the order they were found. -/
structure Escaped where
  vars : List VarId := []
deriving DecidableEq, Repr

namespace Escaped

def contains (e : Escaped) (v : VarId) : Bool := e.vars.contains v

def size (e : Escaped) : Nat := e.vars.length

def insert (e : Escaped) (v : VarId) : Escaped :=
  if e.contains v then e else ⟨e.vars ++ [v]⟩

def insertAll (e : Escaped) (vs : List VarId) : Escaped := vs.foldl insert e

def ofList (vs : List VarId) : Escaped := insertAll {} vs

/-- The variables found before the first failure. -/
def beforeFailure (found : List (Except ε VarId)) : Escaped :=
  ofList ((found.takeWhile (·.isOk)).filterMap Except.toOption)

end Escaped

/-- The first failure in a list of outcomes. -/
def firstFailure? (outcomes : List (Except ε α)) : Option ε :=
  outcomes.findSome? fun
    | .ok _ => none
    | .error e => some e

namespace Program

/-- The variable of a function that a nested function touches at a node. The name of a
nested function stands in that function and does not count. -/
def captureAt (p : Program) (function n : NodeId) : Except NoScope (Option VarId) :=
  match p.tree.name? n with
  | none => .ok none
  | some name =>
    if p.tree.enclosingFunction? n = some function then .ok none
    else if (p.tree.parent n).any p.tree.isFunction then .ok none
    else
      match p.closestScope? n with
      | none => .ok none
      | some s => do
        match ← p.scopes.lookup s name with
        | none => return none
        | some v => return if (← p.scopes.owner v) = some function then some v else none

/-- What nested functions touch, in the order of the text, with the places where that cannot
be told. -/
def captures (p : Program) (function : NodeId) : List (Except NoScope VarId) :=
  (p.tree.preorder function).filterMap fun n =>
    match p.captureAt function n with
    | .ok found => found.map .ok
    | .error e => some (.error e)

/-- The variables of a function that escape whether or not a nested function touches them. -/
def exposed (p : Program) (fs bs : ScopeId) (visible : Convention) : List VarId :=
  (p.scopes.localVars fs bs).filter fun v =>
    (p.scopes.var v).kind == .caught || visible (p.scopes.var v).name

/-- The variables that escape a function, given its two scopes. What nested functions touch
comes first and is logged. -/
def escaped (p : Program) (fs bs : ScopeId) (visible : Convention) : Logged Escaped :=
  match p.scopes.scope? fs with
  | none => ⟨[], .error (.noScope fs)⟩
  | some scope =>
    let captures := p.captures scope.root
    let captured := Escaped.beforeFailure captures
    ⟨captured.vars.map fun v => .captured (p.scopes.var v).name, do
      if let some gap := firstFailure? captures then throw (.noScope gap.id)
      let _ ← p.scopes.existing bs
      return captured.insertAll (p.exposed fs bs visible)⟩

end Program
end Liveness
