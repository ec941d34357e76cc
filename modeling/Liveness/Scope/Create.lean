import Liveness.Scope.Declaration

/-! Laying scopes over a program.

A script, a function, a block, a loop with a header and a catch clause open scopes. Each
opens its scope, declares its names in order and then lets what is inside do the same. The
first fault stops everything, but what was opened and declared before it stays, and what
comes after it is never looked at. -/
namespace Liveness

/-- A step that grows a forest and may fail; what it did before failing stays. -/
abbrev Bind (α : Type) := ExceptT BindError (StateM ScopeForest) α

namespace Bind

def openScope (kind : ScopeKind) (root : NodeId) (parent : Option ScopeId) : Bind ScopeId :=
  ExceptT.lift fun f => f.openScope kind root parent

def declare (s : ScopeId) (d : Decl) : Bind Unit :=
  ExceptT.mk fun f =>
    match f.declare s d.name d.node d.kind with
    | .ok (_, f) => (.ok (), f)
    | .error e => (.error e, f)

/-- Declares names in order. -/
def declareAll (s : ScopeId) : List (Except BindError Decl) → Bind Unit
  | [] => pure ()
  | .ok d :: ds => do
    declare s d
    declareAll s ds
  | .error e :: _ => throw e

/-- Opens a scope at a node, declares its names and goes on inside it. -/
def enter (kind : ScopeKind) (root : NodeId) (parent : Option ScopeId)
    (decls : List (Except BindError Decl)) (inside : ScopeId → Bind Unit) : Bind ScopeId := do
  let s ← openScope kind root parent
  declareAll s decls
  inside s
  return s

/-- Goes through nodes in a scope. -/
def each (visit : NodeId → ScopeId → Bind Unit) (s : ScopeId) : List NodeId → Bind Unit
  | [] => pure ()
  | n :: ns => do
    visit n s
    each visit s ns

end Bind

namespace Tree

/-- Goes through the children of a node in a scope. -/
def bindChildren (t : Tree) (visit : NodeId → ScopeId → Bind Unit) (n : NodeId) (s : ScopeId) :
    Bind Unit :=
  Bind.each visit s (t.children n)

/-- Opens the two scopes of a function. -/
def bindFunction (t : Tree) (visit : NodeId → ScopeId → Bind Unit) (f : NodeId)
    (parent : Option ScopeId) : Bind ScopeId :=
  match t.functionParams? f, t.functionBody? f with
  | some params, some body =>
    Bind.enter .function f parent (t.parameters params) fun s => do
      let _ ← Bind.enter .body body (some s) (t.bodyDecls body) (t.bindChildren visit body)
  | _, _ => throw (.malformed .function .functionParts)

def bindStep (t : Tree) : Step (ScopeId → Bind Unit) := fun below n s => do
  match t.kind n with
  | .function =>
    let _ ← t.bindFunction below n (some s)
  | .block =>
    let _ ← Bind.enter .block n (some s) (t.lexical n) (t.bindChildren below n)
  | .forLoop | .forIn | .forOf =>
    let _ ← Bind.enter .block n (some s) (t.header n) (t.bindChildren below n)
  | .catchClause =>
    let _ ← Bind.enter .handler n (some s) [t.caught n] (t.bindChildren below n)
  | _ => t.bindChildren below n s

/-- Opens the scopes at and below a node inside a scope. -/
def bind (t : Tree) (n : NodeId) (s : ScopeId) : Bind Unit :=
  t.descend t.bindStep (fun _ => pure ()) n s

/-- Opens the scopes of a whole program, which is a script or a function. -/
def bindProgram (t : Tree) (root : NodeId) : Bind ScopeId :=
  match t.kind root with
  | .script => Bind.enter .global root none (t.bodyDecls root) (t.bindChildren t.bind root)
  | .function => t.bindFunction t.bind root none
  | kind => throw (.invalidRoot kind)

end Tree

/-- Lays the scopes of a program over the forest; the result is the outermost one. -/
def ScopeForest.create (f : ScopeForest) (tree : Tree) (root : NodeId) :
    Except BindError ScopeId × ScopeForest :=
  (tree.bindProgram root).run f

end Liveness
