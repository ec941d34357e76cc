import Liveness.Live.Analysis

/-! Passes over functions and what they leave behind.

A pass computes one result for one function from the program and the results already
there. Each kind of result is stored once per function, the latest replacing any before
it. Passes that are not of this library may have kinds of results of their own, which are
kept as text. -/
namespace Liveness

/-- What a pass computes. -/
inductive Result where
  | graph (g : FlowGraph)
  | escaped (e : Escaped)
  | live (r : LiveResult)
  | other (kind text : String)

/-- The results of each kind, by function. -/
structure Results where
  graphs : Table NodeId FlowGraph := .empty
  escapedLocals : Table NodeId Escaped := .empty
  liveVariables : Table NodeId LiveResult := .empty
  others : Table (String × NodeId) String := .empty

namespace Results

def add (r : Results) (function : NodeId) : Result → Results
  | .graph g => { r with graphs := r.graphs.insert function g }
  | .escaped e => { r with escapedLocals := r.escapedLocals.insert function e }
  | .live l => { r with liveVariables := r.liveVariables.insert function l }
  | .other kind text => { r with others := r.others.insert (kind, function) text }

def graph (r : Results) (function : NodeId) : Except AnalysisError FlowGraph :=
  match r.graphs.find? function with
  | some g => .ok g
  | none => .error (.missingResult .graph)

def escaped (r : Results) (function : NodeId) : Except AnalysisError Escaped :=
  match r.escapedLocals.find? function with
  | some e => .ok e
  | none => .error (.missingResult .escaped)

def live (r : Results) (function : NodeId) : Except AnalysisError LiveResult :=
  match r.liveVariables.find? function with
  | some l => .ok l
  | none => .error (.missingResult .live)

def other (r : Results) (kind : String) (function : NodeId) : Except AnalysisError String :=
  match r.others.find? (kind, function) with
  | some text => .ok text
  | none => .error (.missingResult (.other kind))

end Results

/-- The work of a pass on one function. -/
abbrev Runner := Program → Limits → Results → NodeId → Logged Result

structure Pass where
  name : String
  summary : String
  /-- The passes to run before this one. -/
  needs : List String := []
  runner : Runner

namespace Pass

/-- Finds the variables that escape a function. -/
def runEscaped : Runner := fun p _ _ function =>
  match p.functionScopes function with
  | .error e => ⟨[], .error e⟩
  | .ok (fs, bs) =>
    let found := p.escaped fs bs .nothing
    ⟨found.events, found.result.map .escaped⟩

/-- Finds the live variables of a function from its graph and its escaped variables. -/
def runLive : Runner := fun p limits results function =>
  let prepared := do
    let g ← results.graph function
    let escaped ← results.escaped function
    let (fs, bs) ← p.functionScopes function
    Analysis.prepare p g fs bs escaped limits
  match prepared with
  | .error e => ⟨[], .error e⟩
  | .ok a =>
    let found := a.liveVariables limits.maxSteps
    match found.result with
    | .error e => ⟨a.prepareEvents ++ found.events, .error e⟩
    | .ok r =>
      let report := (r.report? p (p.tree.functionTitle function) a.graph).toList.map Event.report
      ⟨a.prepareEvents ++ found.events ++ report, .ok (.live r)⟩

def escapedLocals : Pass where
  name := "escaped-locals"
  summary := "Locals referenced from nested functions, catch bindings and exported names"
  runner := runEscaped

def liveVariables : Pass where
  name := "live-variables"
  summary := "Live variable analysis"
  needs := [escapedLocals.name]
  runner := runLive

/-- The passes that come with the library. -/
def known : List Pass := [escapedLocals, liveVariables]

end Pass
end Liveness
