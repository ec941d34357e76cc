import Liveness.Proofs.Pass.Session

/-! The pipeline computes what its analyses compute.

Live variables can be had without a pipeline, by calling one analysis after the other. The
pipeline keeps what it computed and goes on from there, perhaps much later and after runs that
failed, so its results must be those that the calls would give now. They are as long as the
program stays the same and the graph of the function is not replaced: what is kept for a
function (`Faithful`) is what the calls give with the graph that is kept. -/
namespace Liveness

namespace Program

/-- The variables that escape a function. -/
def escapedVariables (p : Program) (function : NodeId) : Except AnalysisError Escaped := do
  let (fs, bs) ← p.functionScopes function
  (p.escaped fs bs .nothing).result

/-- The live variables of a function, from the scopes of the function, the variables that escape
it and its graph. -/
def liveVariables (p : Program) (limits : Limits) (graph : Except AnalysisError FlowGraph)
    (function : NodeId) : Except AnalysisError LiveResult := do
  let (fs, bs) ← p.functionScopes function
  let escaped ← (p.escaped fs bs .nothing).result
  let g ← graph
  let a ← Analysis.prepare p g fs bs escaped limits
  (a.liveVariables limits.maxSteps).result

theorem liveVariables_of_error {p : Program} {limits : Limits}
    {graph : Except AnalysisError FlowGraph} {function : NodeId} {e : AnalysisError}
    (h : p.escapedVariables function = .error e) :
    p.liveVariables limits graph function = .error e := by
  unfold escapedVariables at h
  unfold liveVariables
  cases scopes : p.functionScopes function with
  | error e' =>
    rw [scopes] at h
    cases h
    rfl
  | ok pair =>
    rw [scopes] at h
    show ((p.escaped pair.1 pair.2 .nothing).result >>= _) = _
    rw [show (p.escaped pair.1 pair.2 .nothing).result = .error e from h]
    rfl

/-- There are no live variables without a graph. -/
theorem graph_of_liveVariables {p : Program} {limits : Limits}
    {graph : Except AnalysisError FlowGraph} {function : NodeId} {r : LiveResult}
    (h : p.liveVariables limits graph function = .ok r) : ∃ g, graph = .ok g := by
  obtain ⟨_, _, h⟩ := bind_eq_ok.mp h
  obtain ⟨_, _, h⟩ := bind_eq_ok.mp h
  obtain ⟨g, found, _⟩ := bind_eq_ok.mp h
  exact ⟨g, found⟩

end Program

namespace Pass

theorem result_runEscaped (p : Program) (limits : Limits) (results : Results) (function : NodeId) :
    (runEscaped p limits results function).result =
      (p.escapedVariables function).map .escaped := by
  unfold runEscaped Program.escapedVariables
  cases p.functionScopes function <;> rfl

/-- With the escaped variables at hand, the second pass does the rest. -/
theorem result_runLive {p : Program} (limits : Limits) {results : Results} {function : NodeId}
    {escaped : Escaped} (kept : results.escaped function = .ok escaped)
    (computed : p.escapedVariables function = .ok escaped) :
    (runLive p limits results function).result =
      (p.liveVariables limits (results.graph function) function).map .live := by
  unfold Program.escapedVariables at computed
  obtain ⟨⟨fs, bs⟩, scopes, found⟩ := bind_eq_ok.mp computed
  unfold runLive Program.liveVariables
  simp only [kept, scopes, bind, Except.bind] at found ⊢
  rw [found]
  cases results.graph function with
  | error e => rfl
  | ok g =>
    dsimp only
    cases Analysis.prepare p g fs bs escaped limits with
    | error e => rfl
    | ok a =>
      dsimp only
      cases (a.liveVariables limits.maxSteps).result <;> rfl

end Pass

namespace Results

@[simp] theorem escaped_add_escaped (r : Results) (function : NodeId) (e : Escaped) :
    (r.add function (.escaped e)).escaped function = .ok e := by
  simp [add, escaped, Table.find?_insert]

@[simp] theorem graph_add_graph (r : Results) (function : NodeId) (g : FlowGraph) :
    (r.add function (.graph g)).graph function = .ok g := by
  simp [add, graph, Table.find?_insert]

@[simp] theorem live_add_live (r : Results) (function : NodeId) (l : LiveResult) :
    (r.add function (.live l)).live function = .ok l := by
  simp [add, live, Table.find?_insert]

/-- A result is there, or it is reported as missing. -/
theorem live_eq_error {r : Results} {function : NodeId}
    (absent : ∀ l, r.live function ≠ .ok l) : r.live function = .error (.missingResult .live) := by
  unfold live at absent ⊢
  cases h : r.liveVariables.find? function with
  | none => rfl
  | some l =>
    rw [h] at absent
    exact absurd rfl (absent l)

end Results

namespace Pipeline
open Pass Relation

/-- The passes of the library, ready to run within limits. -/
def standard (limits : Limits) : Pipeline := (registerAll { limits } Pass.known).2

theorem passes_standard (limits : Limits) :
    (standard limits).passes =
      ⟨[(escapedLocals.name, escapedLocals), (Pass.liveVariables.name, Pass.liveVariables)]⟩ := rfl

theorem eq_of_standard {limits : Limits} {name : String} {pass : Pass}
    (known : (standard limits).passes.find? name = some pass) :
    name = escapedLocals.name ∧ pass = escapedLocals ∨
      name = Pass.liveVariables.name ∧ pass = Pass.liveVariables := by
  obtain ⟨before, after, split, _⟩ := List.lookup_eq_some_iff.mp known
  have listed : (name, pass) ∈ (standard limits).passes.entries := by
    rw [split]
    simp
  simpa [passes_standard] using listed

theorem names_differ : escapedLocals.name ≠ Pass.liveVariables.name := by decide

theorem acyclic_standard (limits : Limits) : Pass.Acyclic (standard limits).passes := by
  rw [passes_standard]
  exact acyclic_of_rank (fun name => [escapedLocals.name].idxOf name) (by decide)

theorem named_standard (limits : Limits) : Named (standard limits).passes := by
  intro name pass known
  rcases eq_of_standard known with ⟨rfl, rfl⟩ | ⟨rfl, rfl⟩ <;> rfl

/-- What a pass of the library needs is in the library. -/
theorem registered_standard {limits : Limits} {name need : String}
    (depends : ReflTransGen (Needs (standard limits).passes) name need)
    (known : ∃ pass, (standard limits).passes.find? name = some pass) :
    ∃ pass, (standard limits).passes.find? need = some pass := by
  induction depends with
  | refl => exact known
  | tail _ needs _ =>
    obtain ⟨pass, found, listed⟩ := needs
    rcases eq_of_standard found with ⟨_, rfl⟩ | ⟨_, rfl⟩
    · cases listed
    · obtain rfl := List.mem_singleton.mp listed
      exact ⟨escapedLocals, rfl⟩

/-- What is kept for a function is what calling the analyses gives, with the graph that is kept. -/
structure Faithful (p : Program) (limits : Limits) (function : NodeId) (l : Pipeline) : Prop where
  passes_eq : l.passes = (standard limits).passes
  limits_eq : l.limits = limits
  escaped_of_done : (escapedLocals.name, function) ∈ l.done →
    ∃ e, l.results.escaped function = .ok e
  escaped_eq : ∀ e, l.results.escaped function = .ok e → p.escapedVariables function = .ok e
  live_of_done : (Pass.liveVariables.name, function) ∈ l.done →
    ∃ r, l.results.live function = .ok r
  live_eq : ∀ r, l.results.live function = .ok r →
    p.liveVariables limits (l.results.graph function) function = .ok r

namespace Faithful
variable {p : Program} {limits : Limits} {function : NodeId}

theorem standard (p : Program) (limits : Limits) (function : NodeId) :
    Faithful p limits function (standard limits) where
  passes_eq := rfl
  limits_eq := rfl
  escaped_of_done done := by cases done
  escaped_eq e kept := by cases kept
  live_of_done done := by cases done
  live_eq r kept := by cases kept

/-- Nothing is said about other functions. -/
theorem congr {l l' : Pipeline} (h : Faithful p limits function l) (passes : l'.passes = l.passes)
    (limits_eq : l'.limits = l.limits) (agree : Results.Agree function l.results l'.results)
    (done : ∀ name, (name, function) ∈ l'.done → (name, function) ∈ l.done) :
    Faithful p limits function l' where
  passes_eq := passes.trans h.passes_eq
  limits_eq := limits_eq.trans h.limits_eq
  escaped_of_done d := agree.escaped ▸ h.escaped_of_done (done _ d)
  escaped_eq := agree.escaped ▸ h.escaped_eq
  live_of_done d := agree.live ▸ h.live_of_done (done _ d)
  live_eq := by
    rw [agree.live, agree.graph]
    exact h.live_eq

/-- What the runner of a pass gives when its turn has come. -/
theorem outcome {l : Pipeline} (h : Faithful p limits function l) {pass : Pass}
    (known : l.passes.find? pass.name = some pass)
    (ready : Ready l.passes l.done pass.name function) :
    pass = escapedLocals ∧ (pass.runner p l.limits l.results function).result =
        (p.escapedVariables function).map .escaped ∨
      pass = Pass.liveVariables ∧ (pass.runner p l.limits l.results function).result =
        (p.liveVariables limits (l.results.graph function) function).map .live := by
  rcases eq_of_standard (h.passes_eq ▸ known) with ⟨_, rfl⟩ | ⟨_, rfl⟩
  · exact .inl ⟨rfl, result_runEscaped p l.limits l.results function⟩
  · have needs : Needs l.passes Pass.liveVariables.name escapedLocals.name :=
      ⟨Pass.liveVariables, known, by simp [Pass.liveVariables]⟩
    obtain ⟨e, kept⟩ := h.escaped_of_done (ready.needed _ needs)
    refine .inr ⟨rfl, ?_⟩
    rw [h.limits_eq]
    exact result_runLive limits kept (h.escaped_eq e kept)

/-- A runner fails with the error that the calls give. -/
theorem liveVariables_of_failed {l : Pipeline} (h : Faithful p limits function l) {pass : Pass}
    (known : l.passes.find? pass.name = some pass)
    (ready : Ready l.passes l.done pass.name function) {e : AnalysisError}
    (failed : (pass.runner p l.limits l.results function).result = .error e) :
    p.liveVariables limits (l.results.graph function) function = .error e := by
  rcases h.outcome known ready with ⟨_, result⟩ | ⟨_, result⟩
  · rw [result] at failed
    cases computed : p.escapedVariables function with
    | error e' =>
      rw [computed] at failed
      cases failed
      exact Program.liveVariables_of_error computed
    | ok escaped =>
      rw [computed] at failed
      cases failed
  · rw [result] at failed
    cases computed : p.liveVariables limits (l.results.graph function) function with
    | error e' =>
      rw [computed] at failed
      cases failed
      rfl
    | ok r =>
      rw [computed] at failed
      cases failed

/-- An invocation keeps what the calls give, and no pass replaces the graph. -/
theorem invoke {s : Session} (h : Faithful p limits function s.pipeline) {pass : Pass}
    (known : s.pipeline.passes.find? pass.name = some pass)
    (ready : Ready s.pipeline.passes s.pipeline.done pass.name function) :
    Faithful p limits function ((invoke p function pass).run s).2.pipeline ∧
      ((Pipeline.invoke p function pass).run s).2.pipeline.results.graph function =
        s.pipeline.results.graph function := by
  rcases h.outcome known ready with ⟨rfl, result⟩ | ⟨rfl, result⟩
  · cases computed : p.escapedVariables function with
    | error e =>
      rw [computed] at result
      rw [run_invoke_error result]
      exact ⟨h, rfl⟩
    | ok escaped =>
      rw [computed] at result
      rw [run_invoke_ok result]
      refine ⟨⟨h.passes_eq, h.limits_eq, ?_, ?_, ?_, h.live_eq⟩, rfl⟩
      · exact fun _ => ⟨escaped, Results.escaped_add_escaped _ _ _⟩
      · intro e kept
        rw [Results.escaped_add_escaped] at kept
        exact computed.trans kept
      · intro done
        rcases List.mem_cons.mp done with same | old
        · exact absurd (congrArg Prod.fst same).symm names_differ
        · exact h.live_of_done old
  · cases computed : p.liveVariables limits (s.pipeline.results.graph function) function with
    | error e =>
      rw [computed] at result
      rw [run_invoke_error result]
      exact ⟨h, rfl⟩
    | ok r =>
      rw [computed] at result
      rw [run_invoke_ok result]
      refine ⟨⟨h.passes_eq, h.limits_eq, ?_, h.escaped_eq, ?_, ?_⟩, rfl⟩
      · intro done
        rcases List.mem_cons.mp done with same | old
        · exact absurd (congrArg Prod.fst same) names_differ
        · exact h.escaped_of_done old
      · exact fun _ => ⟨r, Results.live_add_live _ _ _⟩
      · intro r' kept
        rw [Results.live_add_live] at kept
        exact computed.trans kept

/-- A run on any function keeps what the calls give, and the graph. -/
theorem proceeds {on : NodeId} {asked : String → Prop} {s t : Session}
    (h : Faithful p limits function s.pipeline) (run : Proceeds p on asked s t) :
    Faithful p limits function t.pipeline ∧
      t.pipeline.results.graph function = s.pipeline.results.graph function := by
  by_cases here : on = function
  · subst here
    induction run with
    | rest => exact ⟨h, rfl⟩
    | invoke _ known _ ready ih =>
      obtain ⟨faithful, graph⟩ := ih.1.invoke known ready
      exact ⟨faithful, graph.trans ih.2⟩
  · have agree := run.agree (Ne.symm here)
    refine ⟨h.congr run.passes_eq run.limits_eq agree fun name done => ?_, agree.graph⟩
    rcases run.of_done done with old | ⟨_, same⟩
    · exact old
    · exact absurd same.symm here

end Faithful

/-! ### Requests about one program -/

/-- A request that registers nothing, and runs passes on the given program only. -/
def Request.Concerns (p : Program) : Request → Prop
  | .register _ => False
  | .addGraph _ _ => True
  | .run q _ _ => q = p

/-- The request brings a graph of the function. -/
def Request.supplies (function : NodeId) : Request → Bool
  | .addGraph f _ => f == function
  | _ => false

theorem Faithful.addGraph {p : Program} {limits : Limits} {function : NodeId} {l : Pipeline}
    (h : Faithful p limits function l) (on : NodeId) (g : FlowGraph)
    (first : on = function → l.results.graph function = .error (.missingResult .graph)) :
    Faithful p limits function (l.addGraph on g) := by
  by_cases here : on = function
  · refine ⟨h.passes_eq, h.limits_eq, h.escaped_of_done, h.escaped_eq, h.live_of_done, ?_⟩
    intro r kept
    -- Without a graph there was nothing to keep.
    obtain ⟨g', found⟩ := Program.graph_of_liveVariables (h.live_eq r kept)
    rw [first here] at found
    cases found
  · exact h.congr rfl rfl (.add (Ne.symm here) l.results (.graph g)) fun _ done => done

/-- As long as the graph of a function is not replaced, what is kept for it is what the calls
give. -/
theorem faithful_serveAll (p : Program) (limits : Limits) (function : NodeId)
    (requests : List Request) (concerns : ∀ r ∈ requests, r.Concerns p)
    (once : requests.countP (·.supplies function) ≤ 1) :
    Faithful p limits function
        (Session.serveAll { pipeline := standard limits } requests).pipeline ∧
      (requests.countP (·.supplies function) = 0 →
        (Session.serveAll { pipeline := standard limits } requests).pipeline.results.graph function =
          .error (.missingResult .graph)) := by
  induction requests using List.reverseRecOn with
  | nil => exact ⟨.standard p limits function, fun _ => rfl⟩
  | append_singleton requests last ih =>
    rw [List.countP_append, List.countP_singleton] at once ⊢
    obtain ⟨faithful, unsupplied⟩ := ih (fun r hr => concerns r (by simp [hr])) (by omega)
    have concern := concerns last (by simp)
    rw [Session.serveAll, List.foldl_append]
    cases last with
    | register pass => exact concern.elim
    | addGraph on g =>
      refine ⟨faithful.addGraph on g fun here => unsupplied ?_, fun none => ?_⟩
      · have supplied : Request.supplies function (.addGraph on g) = true := beq_iff_eq.mpr here
        rw [if_pos supplied] at once
        omega
      · have other : function ≠ on := by
          rintro rfl
          simp [Request.supplies] at none
        exact (Results.Agree.add other _ _).graph.trans (unsupplied (by omega))
    | run q on names =>
      obtain rfl : q = p := concern
      have acyclic := faithful.passes_eq ▸ acyclic_standard limits
      have named := faithful.passes_eq ▸ named_standard limits
      obtain ⟨faithful', graph⟩ := faithful.proceeds (proceeds_serve acyclic named q on names)
      exact ⟨faithful', fun none => graph.trans (unsupplied (by omega))⟩

/-- How asking for live variables ends. -/
theorem Faithful.run_cases {p : Program} {limits : Limits} {function : NodeId} {l : Pipeline}
    (h : Faithful p limits function l) {result : Except AnalysisError Unit} {t : Session}
    (ran : l.run p function [Pass.liveVariables.name] = (result, t)) :
    (∃ r, p.liveVariables limits (l.results.graph function) function = .ok r ∧
        result = .ok () ∧ t.pipeline.results.live function = .ok r) ∨
      ∃ e, p.liveVariables limits (l.results.graph function) function = .error e ∧
        result = .error e ∧ t.pipeline.results.live function = .error (.missingResult .live) := by
  have acyclic := h.passes_eq ▸ acyclic_standard limits
  have named := h.passes_eq ▸ named_standard limits
  have ends := ends_run l acyclic named p function [Pass.liveVariables.name]
  rw [ran] at ends
  obtain ⟨after, graph⟩ := Faithful.proceeds (s := { pipeline := l }) h ends.proceeds
  rw [← show t.pipeline.results.graph function = l.results.graph function from graph]
  cases result with
  | ok _ =>
    obtain ⟨r, kept⟩ := after.live_of_done (ends.done rfl _ (by simp))
    exact .inl ⟨r, after.live_eq r kept, rfl, kept⟩
  | error e =>
    have failed : p.liveVariables limits (t.pipeline.results.graph function) function =
        .error e := by
      obtain ⟨name, ⟨_, wanted, below⟩, stops⟩ := ends.stops e rfl
      cases stops with
      | unregistered absent _ =>
        obtain rfl := List.mem_singleton.mp wanted
        rw [h.passes_eq] at below
        obtain ⟨pass, found⟩ := registered_standard below ⟨Pass.liveVariables, rfl⟩
        rw [after.passes_eq, found] at absent
        cases absent
      | failed known ready failed _ _ _ _ => exact after.liveVariables_of_failed known ready failed
    refine .inr ⟨e, failed, rfl, Results.live_eq_error fun r kept => ?_⟩
    rw [after.live_eq r kept] at failed
    cases failed

/-- **The pipeline computes what its analyses compute.** After any requests about one program, of
which at most one brings a graph of the function: live variables that are kept for the function
are those that calling the analyses gives with the graph that is kept; and asking for live
variables gives what the calls give, result or first error. -/
theorem run_liveVariables_eq (p : Program) (limits : Limits) (function : NodeId)
    (requests : List Request) (concerns : ∀ r ∈ requests, r.Concerns p)
    (once : requests.countP (·.supplies function) ≤ 1) (s : Session)
    (reached : Session.serveAll { pipeline := standard limits } requests = s) :
    (∀ r, s.pipeline.results.live function = .ok r →
      ∃ g, s.pipeline.results.graph function = .ok g ∧
        p.liveVariables limits (.ok g) function = .ok r) ∧
    ∀ (result : Except AnalysisError Unit) (t : Session),
      s.pipeline.run p function [Pass.liveVariables.name] = (result, t) →
      (∀ r, p.liveVariables limits (s.pipeline.results.graph function) function = .ok r →
        result = .ok () ∧ t.pipeline.results.live function = .ok r) ∧
      ∀ e, p.liveVariables limits (s.pipeline.results.graph function) function = .error e →
        result = .error e ∧
          t.pipeline.results.live function = .error (.missingResult .live) := by
  subst reached
  obtain ⟨faithful, _⟩ := faithful_serveAll p limits function requests concerns once
  refine ⟨fun r kept => ?_, fun result t ran => ?_⟩
  · have computed := faithful.live_eq r kept
    obtain ⟨g, found⟩ := Program.graph_of_liveVariables computed
    exact ⟨g, found, found ▸ computed⟩
  · rcases faithful.run_cases ran with ⟨r, computed, ok, kept⟩ | ⟨e, computed, failed, none⟩
    · rw [computed]
      refine ⟨fun r' same => ?_, fun e impossible => (by cases impossible)⟩
      cases same
      exact ⟨ok, kept⟩
    · rw [computed]
      refine ⟨fun r impossible => (by cases impossible), fun e' same => ?_⟩
      cases same
      exact ⟨failed, none⟩

/-- `function f(i, step) { while (i) i -= step; }` -/
def descent : Program :=
  (Program.createScopes
    { tree := ⟨#[{ kind := .name "f", parent := some 11 }, { kind := .name "i", parent := some 3 },
        { kind := .name "step", parent := some 3 },
        { kind := .paramList, children := [1, 2], parent := some 11 },
        { kind := .name "i", parent := some 9 }, { kind := .name "i", parent := some 7 },
        { kind := .name "step", parent := some 7 },
        { kind := .assign .sub, children := [5, 6], parent := some 8 },
        { kind := .exprStmt, children := [7], parent := some 9 },
        { kind := .whileLoop, children := [4, 8], parent := some 10 },
        { kind := .block, children := [9], parent := some 11 },
        { kind := .function, children := [0, 3, 10] }]⟩
      normalized := true } 11).2

def descentGraph : FlowGraph where
  points := #[.implicitReturn, .node 9, .node 8]
  edges := [⟨1, .onFalse, 0⟩, ⟨2, .always, 1⟩, ⟨1, .onTrue, 2⟩]
  start := some 1

/-- The graph comes after a first run that missed it and one on what is no function. -/
def descentRequests : List Request :=
  [.run descent 11 ["live-variables"], .run descent 4 ["escaped-locals"], .addGraph 11 descentGraph]

theorem run_liveVariables_eq_descent :
    (∃ t, (standard ⟨10, 20⟩).run descent 11 [Pass.liveVariables.name] =
      (.error (.missingResult .graph), t)) ∧
    ∃ s t r, Session.serveAll { pipeline := standard ⟨10, 20⟩ } descentRequests = s ∧
      s.pipeline.run descent 11 [Pass.liveVariables.name] = (.ok (), t) ∧
      t.pipeline.results.live 11 = .ok r ∧ r.isLiveBefore 1 "step" = true ∧
      descent.liveVariables ⟨10, 20⟩ (.ok descentGraph) 11 = .ok r := by
  constructor
  · have missing : descent.liveVariables ⟨10, 20⟩ (.error (.missingResult .graph)) 11 =
        .error (.missingResult .graph) := rfl
    cases ran : (standard ⟨10, 20⟩).run descent 11 [Pass.liveVariables.name] with
    | mk result t =>
      obtain ⟨_, runs⟩ := run_liveVariables_eq descent ⟨10, 20⟩ 11 [] (by simp) (by simp) _ rfl
      obtain ⟨failed, _⟩ := (runs result t ran).2 _ missing
      exact ⟨t, by rw [failed]⟩
  · have concerns : ∀ r ∈ descentRequests, r.Concerns descent := by
      intro r hr
      simp only [descentRequests, List.mem_cons, List.not_mem_nil, or_false] at hr
      rcases hr with rfl | rfl | rfl
      · rfl
      · rfl
      · trivial
    have graph : (Session.serveAll { pipeline := standard ⟨10, 20⟩ }
        descentRequests).pipeline.results.graph 11 = .ok descentGraph :=
      Results.graph_add_graph _ 11 descentGraph
    have computed : descent.liveVariables ⟨10, 20⟩ (.ok descentGraph) 11 =
        .ok ⟨⟨.backward, #[⟨⟨2, #[0]⟩, ⟨2, #[0]⟩⟩, ⟨⟨2, #[3]⟩, ⟨2, #[3]⟩⟩, ⟨⟨2, #[3]⟩, ⟨2, #[3]⟩⟩], 4⟩,
          ⟨[("i", 0), ("step", 1)]⟩, {}⟩ := rfl
    cases ran : (Session.serveAll { pipeline := standard ⟨10, 20⟩ } descentRequests).pipeline.run
        descent 11 [Pass.liveVariables.name] with
    | mk result t =>
      obtain ⟨_, runs⟩ := run_liveVariables_eq descent ⟨10, 20⟩ 11 descentRequests concerns
        (by decide) _ rfl
      obtain ⟨ok, kept⟩ := (runs result t ran).1 _ (by rw [graph]; exact computed)
      exact ⟨_, t, _, rfl, by rw [ran, ok], kept, by decide, computed⟩

end Pipeline
end Liveness
