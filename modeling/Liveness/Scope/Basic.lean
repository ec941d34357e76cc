import Liveness.Table
import Liveness.Tree.Kind
import Liveness.Tree.Basic

/-! Lexical scopes and their variables.

Scopes are numbered in the order they are opened, and so are variables. A scope belongs
to the node that opens it and sits below the scope around it; a function has two, one
for its parameters and below it one for its body. Both links, to the scope around and to
the scopes inside, are kept, as is the way from a node to its scope: the last one opened
there.

Declaring a name twice in one scope is harmless as long as neither declaration is
lexical: the first variable then stands for both. -/
namespace Liveness

abbrev ScopeId := Nat

abbrev VarId := Nat

inductive ScopeKind where
  | global
  | function
  | body
  | block
  | handler
deriving DecidableEq, Repr

def ScopeKind.label : ScopeKind → String
  | .global => "global"
  | .function => "function"
  | .body => "function block"
  | .block => "block"
  | .handler => "catch"

/-- How a variable came to be declared. -/
inductive VarKind where
  | param
  | plain
  | mutable
  | constant
  | function
  | caught
deriving DecidableEq, Repr

/-- Bound by `let` or `const`: such a name is declared once. -/
def VarKind.isLexical : VarKind → Bool
  | mutable | constant => true
  | _ => false

def VarKind.label : VarKind → String
  | .param => "Param"
  | .plain => "Var"
  | .mutable => "Let"
  | .constant => "Const"
  | .function => "Function"
  | .caught => "Catch"

/-- What a construct should have held where something else was found. -/
inductive Expectation where
  | functionParts
  | parameterName
  | caughtName
  | bindingName
  | functionName
deriving DecidableEq, Repr

def Expectation.text : Expectation → String
  | .functionParts => "a name, a parameter list and a body"
  | .parameterName => "simple parameter names"
  | .caughtName => "a bound name"
  | .bindingName => "one simple name per declared binding"
  | .functionName => "a function name"

/-- Why scopes cannot be laid over a program. -/
inductive BindError where
  | duplicate (name : String)
  | malformed (kind : Kind) (expected : Expectation)
  | invalidRoot (kind : Kind)
deriving DecidableEq, Repr

def BindError.message : BindError → String
  | .duplicate name => "Name \"" ++ name ++ "\" is declared more than once in the same scope."
  | .malformed kind expected => "Malformed " ++ kind.label ++ " node: expected " ++ expected.text ++ "."
  | .invalidRoot kind =>
    "Scope creation must start at a SCRIPT or FUNCTION node, found " ++ kind.label ++ "."

structure Scope where
  kind : ScopeKind
  root : NodeId
  parent : Option ScopeId := none
  children : List ScopeId := []
  vars : Table String VarId := .empty
deriving DecidableEq, Repr

/-- A number that should name a scope and does not. -/
structure NoScope where
  id : ScopeId
deriving DecidableEq, Repr

structure Variable where
  name : String
  scope : ScopeId
  node : NodeId
  kind : VarKind
deriving DecidableEq, Repr

structure ScopeForest where
  scopes : Array Scope := #[]
  vars : Array Variable := #[]
  roots : Table NodeId ScopeId := .empty
deriving DecidableEq, Repr

namespace ScopeForest

def scope? (f : ScopeForest) (s : ScopeId) : Option Scope := f.scopes[s]?

def var? (f : ScopeForest) (v : VarId) : Option Variable := f.vars[v]?

/-- A number that names no scope reads as an empty global scope. -/
def scope (f : ScopeForest) (s : ScopeId) : Scope :=
  (f.scope? s).getD { kind := .global, root := 0 }

/-- A number that names no variable reads as an unnamed one. -/
def var (f : ScopeForest) (v : VarId) : Variable :=
  (f.var? v).getD { name := "", scope := 0, node := 0, kind := .plain }

def isFunctionScope (f : ScopeForest) (s : ScopeId) : Bool := (f.scope s).kind == .function

def isBodyScope (f : ScopeForest) (s : ScopeId) : Bool := (f.scope s).kind == .body

/-- The scope last opened at a node. -/
def at? (f : ScopeForest) (n : NodeId) : Option ScopeId := f.roots.find? n

/-- The variables of a scope in the order of declaration. -/
def varsOf (f : ScopeForest) (s : ScopeId) : List VarId := (f.scope s).vars.values

/-! ### Growing the forest -/

def addScope (f : ScopeForest) (kind : ScopeKind) (root : NodeId)
    (parent : Option ScopeId) : ScopeForest :=
  { f with scopes := f.scopes.push { kind, root, parent } }

def link (f : ScopeForest) (child : ScopeId) : Option ScopeId → ScopeForest
  | some p =>
    { f with scopes := f.scopes.modify p fun s => { s with children := s.children ++ [child] } }
  | none => f

/-- Opens a scope at a node. -/
def openScope (f : ScopeForest) (kind : ScopeKind) (root : NodeId) (parent : Option ScopeId) :
    ScopeId × ScopeForest :=
  let s := f.scopes.size
  let f := (f.addScope kind root parent).link s parent
  (s, { f with roots := f.roots.insert root s })

/-- Opens a scope below one that need not exist. The new scope has its number before the
one around it is looked for, and so may name itself. If there is no scope of the given
number, none is returned: the new scope then takes its place in the order, but no node
leads to it. -/
def openUnder (f : ScopeForest) (kind : ScopeKind) (root : NodeId) (parent : Option ScopeId) :
    Option ScopeId × ScopeForest :=
  if parent.all (· ≤ f.scopes.size) then
    let (s, f) := f.openScope kind root parent
    (some s, f)
  else (none, f.addScope kind root parent)

def ownVar? (f : ScopeForest) (s : ScopeId) (name : String) : Option VarId :=
  (f.scope s).vars.find? name

/-- Adds a variable to a scope without looking for its name. -/
def addVar (f : ScopeForest) (s : ScopeId) (name : String) (node : NodeId) (kind : VarKind) :
    VarId × ScopeForest :=
  let v := f.vars.size
  (v, { f with
    vars := f.vars.push { name, scope := s, node, kind }
    scopes := f.scopes.modify s fun scope => { scope with vars := scope.vars.push name v } })

/-- Declares a name in a scope. A name already there keeps its variable, unless the old or
the new declaration is lexical. -/
def declare (f : ScopeForest) (s : ScopeId) (name : String) (node : NodeId) (kind : VarKind) :
    Except BindError (VarId × ScopeForest) :=
  match f.ownVar? s name with
  | some v =>
    if kind.isLexical || (f.var v).kind.isLexical then .error (.duplicate name) else .ok (v, f)
  | none => .ok (f.addVar s name node kind)

/-! ### Outwards -/

/-- A scope and up to `k` of the scopes around it, innermost first. -/
def outward (f : ScopeForest) : Nat → ScopeId → List ScopeId
  | 0, s => [s]
  | k + 1, s => s :: match (f.scope s).parent with
    | some p => f.outward k p
    | none => []

/-- A scope and all scopes around it, innermost first. A scope is opened after the ones
around it, so there are fewer of these than scopes. -/
def chain (f : ScopeForest) (s : ScopeId) : List ScopeId := f.outward f.scopes.size s

/-- The variable a name means in a scope: that of the innermost scope that declares it. -/
def resolve? (f : ScopeForest) (s : ScopeId) (name : String) : Option VarId :=
  (f.chain s).findSome? fun r => f.ownVar? r name

/-- The innermost function scope at or around a scope. -/
def closestFunction? (f : ScopeForest) (s : ScopeId) : Option ScopeId :=
  (f.chain s).find? f.isFunctionScope

/-- The function whose scopes hold the variable. -/
def functionOf? (f : ScopeForest) (v : VarId) : Option NodeId :=
  (f.closestFunction? (f.var v).scope).map fun s => (f.scope s).root

/-! ### Gaps

A scope can have been opened below a number that names no scope. A search outward that
comes to such a gap has no answer. -/

/-- The number without a scope that the way outward from `s` ends at. -/
def gap? (f : ScopeForest) (s : ScopeId) : Option ScopeId :=
  (f.chain s).find? fun r => f.scopes.size ≤ r

/-- The outcome of a search outward from `s`, given what it found before any gap. -/
def settle (f : ScopeForest) (s : ScopeId) : Option α → Except NoScope (Option α)
  | some a => .ok (some a)
  | none =>
    match f.gap? s with
    | some r => .error ⟨r⟩
    | none => .ok none

/-- Looks up what a name means in a scope. -/
def lookup (f : ScopeForest) (s : ScopeId) (name : String) : Except NoScope (Option VarId) :=
  f.settle s (f.resolve? s name)

/-- Looks up the innermost function scope at or around a scope. -/
def functionScope (f : ScopeForest) (s : ScopeId) : Except NoScope (Option ScopeId) :=
  f.settle s (f.closestFunction? s)

/-- Looks up the function whose scopes hold the variable. -/
def owner (f : ScopeForest) (v : VarId) : Except NoScope (Option NodeId) :=
  f.settle (f.var v).scope (f.functionOf? v)

/-! ### Inwards -/

/-- A scope and the scopes inside it down to the given depth, leaving out nested functions. -/
def inward (f : ScopeForest) : Nat → ScopeId → List ScopeId
  | 0, s => [s]
  | k + 1, s =>
    s :: ((f.scope s).children.filter fun c => !f.isFunctionScope c).flatMap (f.inward k)

/-- A scope and the scopes inside it that belong to the same function. -/
def within (f : ScopeForest) (s : ScopeId) : List ScopeId := f.inward f.scopes.size s

end ScopeForest
end Liveness
