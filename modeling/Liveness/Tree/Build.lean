import Liveness.Tree.Basic

/-! Constructors for programs.

Each constructor adds the nodes of one construct to the tree, children before parents,
and returns the topmost. What it adds besides the nodes it is given, and in which order,
fixes the numbers that later nodes get. -/
namespace Liveness

/-- A step that grows a tree. -/
abbrev Build (α : Type) := StateM Tree α

namespace Build

/-- Any kind over any children. -/
def node (kind : Kind) (children : List NodeId := []) : Build NodeId :=
  fun t => t.add kind children

def name (text : String) (children : List NodeId := []) : Build NodeId :=
  node (.name text) children

def boolean (value : Bool) : Build NodeId :=
  node (if value then .trueLit else .falseLit)

/-- A function; the nodes for its name, its parameters and their list come first. -/
def function (text : String) (params : List String) (body : NodeId) : Build NodeId := do
  let called ← name text
  let names ← params.mapM fun p => name p
  let list ← node .paramList names
  node .function [called, list, body]

/-- A declaration of one name, with its initial value if there is one. -/
def declaration (kind : Kind) (text : String) (value : Option NodeId) : Build NodeId := do
  let bound ← name text value.toList
  node kind [bound]

def arrayPattern (names : List String) : Build NodeId := do
  let bound ← names.mapM fun x => name x
  node .arrayPattern bound

/-- A part of a loop header, an empty statement if it is left out. -/
def part (n : Option NodeId) : Build NodeId :=
  match n with
  | some n => pure n
  | none => node .empty

def forLoop (start condition increment : Option NodeId) (body : NodeId) : Build NodeId := do
  let start ← part start
  let condition ← part condition
  let increment ← part increment
  node .forLoop [start, condition, increment, body]

def tryCatch (guarded : NodeId) (bound : String) (handler : NodeId) (final : Option NodeId) :
    Build NodeId := do
  let bound ← name bound
  let clause ← node .catchClause [bound, handler]
  node .tryStmt ([guarded, clause] ++ final.toList)

end Build
end Liveness
