import Mathlib.Data.List.Induction
import Liveness.Proofs.Pass.Schedule

/-! Pipelines over a whole session.

A pipeline is asked to register passes, to take graphs and to run, in any order. What holds at
the end of one run has to hold still after everything that comes between: a new pass takes no
name that is in use, so it cannot make an old invocation look out of order. -/
namespace Liveness.Pipeline
open Pass Relation
open Invocation (completed completed_append)

/-- Passes are known by their names, and what is done is what succeeded in an orderly history. -/
structure Session.Sound (s : Session) : Prop where
  named : Named s.pipeline.passes
  done_eq : s.pipeline.done = completed s.history
  orderly : Orderly s.pipeline.passes s.history

/-- An invocation whose turn has come keeps the history orderly, and so does a run. -/
theorem Session.Sound.proceeds {p : Program} {function : NodeId} {asked : String → Prop}
    {s t : Session} (sound : s.Sound) (h : Proceeds p function asked s t) : t.Sound := by
  induction h with
  | rest => exact sound
  | @invoke t pass _ _ _ ready ih =>
    obtain ⟨i, name, on, history, done, passes, _⟩ := exists_invocation p function pass t
    refine ⟨passes ▸ ih.named, ?_, ?_⟩
    · rw [done, history, ih.done_eq, ← completed_append, List.singleton_append]
    · rw [passes, history]
      refine .cons ?_ ih.orderly
      rw [name, on, ← ih.done_eq]
      exact ready

/-- What a pipeline can be asked for. -/
inductive Request where
  | register (pass : Pass)
  | addGraph (function : NodeId) (g : FlowGraph)
  | run (program : Program) (function : NodeId) (names : List String)

/-- A request to register a name again changes nothing. A run adds its invocations to the
history, whether or not it ends with an error. -/
def Session.serve (s : Session) : Request → Session
  | .register pass => { s with pipeline := (s.pipeline.register? pass).getD s.pipeline }
  | .addGraph function g => { s with pipeline := s.pipeline.addGraph function g }
  | .run p function names =>
    let t := (s.pipeline.run p function names).2
    { pipeline := t.pipeline, history := t.history ++ s.history }

def Session.serveAll (s : Session) (requests : List Request) : Session :=
  requests.foldl Session.serve s

/-- A pass that is registered is new, and comes after the others. -/
theorem register?_eq_some {l l' : Pipeline} {pass : Pass} (h : l.register? pass = some l') :
    l' = { l with passes := l.passes.push pass.name pass } := by
  unfold register? at h
  split at h
  · cases h
  · exact (Option.some.inj h).symm

/-- No request takes a pass away. -/
theorem find?_serve {s : Session} (request : Request) {name : String} {pass : Pass}
    (known : s.pipeline.passes.find? name = some pass) :
    (s.serve request).pipeline.passes.find? name = some pass := by
  cases request with
  | register new =>
    show ((s.pipeline.register? new).getD s.pipeline).passes.find? name = some pass
    cases registered : s.pipeline.register? new with
    | none => exact known
    | some l =>
      rw [Option.getD_some, register?_eq_some registered, Table.find?_push, known, Option.some_or]
  | addGraph function g => exact known
  | run p function names => exact (passes_run s.pipeline p function names).symm ▸ known

/-- A run is its invocations, one after the other, also as part of a session. -/
theorem proceeds_serve {s : Session} (acyclic : Pass.Acyclic s.pipeline.passes)
    (named : Named s.pipeline.passes) (p : Program) (function : NodeId) (names : List String) :
    Proceeds p function
      (fun name => ∃ wanted ∈ names, ReflTransGen (Needs s.pipeline.passes) wanted name) s
      (s.serve (.run p function names)) :=
  (ends_run s.pipeline acyclic named p function names).proceeds.after s.history

theorem Session.Sound.serve {s : Session} (sound : s.Sound) (request : Request)
    (acyclic : Pass.Acyclic s.pipeline.passes) : (s.serve request).Sound := by
  cases request with
  | register pass =>
    have kept : ∀ name old, s.pipeline.passes.find? name = some old →
        (s.serve (.register pass)).pipeline.passes.find? name = some old :=
      fun _ _ known => find?_serve _ known
    refine ⟨?_, ?_, sound.orderly.mono kept⟩
    · show Named ((s.pipeline.register? pass).getD s.pipeline).passes
      cases registered : s.pipeline.register? pass with
      | none => exact sound.named
      | some l =>
        intro name found h
        rw [Option.getD_some, register?_eq_some registered, Table.find?_push,
          Option.or_eq_some_iff] at h
        rcases h with old | ⟨_, new⟩
        · exact sound.named name found old
        · simp only [beq_iff_eq, Option.ite_none_right_eq_some, Option.some.injEq] at new
          rw [new.1, new.2]
    · show ((s.pipeline.register? pass).getD s.pipeline).done = completed s.history
      cases registered : s.pipeline.register? pass with
      | none => exact sound.done_eq
      | some l =>
        rw [Option.getD_some, register?_eq_some registered]
        exact sound.done_eq
  | addGraph function g => exact ⟨sound.named, sound.done_eq, sound.orderly⟩
  | run p function names =>
    exact sound.proceeds (proceeds_serve acyclic sound.named p function names)

/-- The history stays orderly over all requests. -/
theorem Session.Sound.serveAll {s : Session} (sound : s.Sound) (requests : List Request)
    (acyclic : Pass.Acyclic (s.serveAll requests).pipeline.passes) :
    (s.serveAll requests).Sound := by
  induction requests using List.reverseRecOn with
  | nil => exact sound
  | append_singleton requests last ih =>
    rw [Session.serveAll, List.foldl_append] at acyclic ⊢
    have earlier : Pass.Acyclic (s.serveAll requests).pipeline.passes :=
      acyclic.of_kept fun _ _ => find?_serve last
    exact (ih earlier).serve last earlier

theorem Session.sound_new (limits : Limits) : Session.Sound { pipeline := { limits } } where
  named _ _ known := by cases known
  done_eq := rfl
  orderly := .nil

/-- A pass that is done is registered, and all it depends on is done. -/
theorem Session.Sound.of_done {s : Session} (sound : s.Sound) {name : String} {function : NodeId}
    (done : (name, function) ∈ s.pipeline.done) :
    s.pipeline.isRegistered name = true ∧
      ∀ need, TransGen (Needs s.pipeline.passes) name need → (need, function) ∈ s.pipeline.done := by
  rw [sound.done_eq] at done ⊢
  obtain ⟨pass, known⟩ := (sound.orderly.of_completed done).1
  refine ⟨?_, fun need depends => sound.orderly.completed_of_transGen done depends⟩
  rw [isRegistered, Table.contains, known, Option.isSome_some]

/-- What stopped a run is not done. -/
theorem StopsAt.not_done {p : Program} {function : NodeId} {t : Session} {e : AnalysisError}
    {name : String} (stops : StopsAt p function t e name)
    (registered : (name, function) ∈ t.pipeline.done → t.pipeline.isRegistered name = true) :
    (name, function) ∉ t.pipeline.done := by
  intro done
  cases stops with
  | unregistered absent _ =>
    have known := registered done
    rw [isRegistered, Table.contains, absent] at known
    cases known
  | failed _ ready => exact ready.new done

/-- **Each pass after what it needs, and once.** Whatever a pipeline is asked for, in whatever
order and with whatever runners, as long as no registered pass waits for itself:

- what is done is what succeeded in the history, no pass twice for one function;
- a pass that is done is registered, and all it depends on is done for the same function;
- when a pass was invoked, all it depends on had succeeded for the function, and once it has
  succeeded it is not invoked again;
- a run gets done exactly what succeeds in it, and if it ends with an error, then neither the
  pass it stopped at nor anything that depends on that pass is done;
- a run on one function leaves results and passes of every other function as they were. -/
theorem serveAll_in_order (limits : Limits) (requests : List Request) (s : Session)
    (reached : Session.serveAll { pipeline := { limits } } requests = s)
    (acyclic : Pass.Acyclic s.pipeline.passes) :
    (s.pipeline.done = completed s.history ∧ s.pipeline.done.Nodup) ∧
    (∀ name function, (name, function) ∈ s.pipeline.done →
      s.pipeline.isRegistered name = true ∧
        ∀ need, TransGen (Needs s.pipeline.passes) name need →
          (need, function) ∈ s.pipeline.done) ∧
    (∀ later i earlier, s.history = later ++ i :: earlier →
      (∀ need, TransGen (Needs s.pipeline.passes) i.pass need →
        (need, i.function) ∈ completed earlier) ∧
      (i.succeeded = true → ∀ j ∈ later, (j.pass, j.function) ≠ (i.pass, i.function))) ∧
    ∀ (p : Program) (function : NodeId) (names : List String) (result : Except AnalysisError Unit)
      (t : Session), s.pipeline.run p function names = (result, t) →
      t.pipeline.done = completed t.history ++ s.pipeline.done ∧
      (∀ e, result = .error e → ∃ name, StopsAt p function t e name ∧
        ∀ dependent, ReflTransGen (Needs t.pipeline.passes) dependent name →
          (dependent, function) ∉ t.pipeline.done) ∧
      ∀ other, other ≠ function →
        Results.Agree other s.pipeline.results t.pipeline.results ∧
          ∀ name, (name, other) ∈ t.pipeline.done ↔ (name, other) ∈ s.pipeline.done := by
  subst reached
  have sound := (Session.sound_new limits).serveAll requests acyclic
  refine ⟨⟨sound.done_eq, sound.done_eq ▸ sound.orderly.nodup_completed⟩,
    fun name function done => sound.of_done done, fun later i earlier split => ?_,
    fun p function names result t ran => ?_⟩
  · have orderly := split ▸ sound.orderly
    exact ⟨fun need depends => orderly.needed depends,
      fun succeeded j hj => orderly.not_again succeeded hj⟩
  · have ends := ends_run _ acyclic sound.named p function names
    have served := sound.serve (.run p function names) acyclic
    rw [Session.serve] at served
    rw [ran] at ends served
    obtain ⟨new, history, done, _⟩ := ends.proceeds.exists_history
    obtain rfl : t.history = new := by rw [history, List.append_nil]
    refine ⟨done, fun e failed => ?_, fun other differs => ⟨ends.proceeds.agree differs, fun name => ?_⟩⟩
    · obtain ⟨name, _, stops⟩ := ends.stops e failed
      refine ⟨name, stops, fun dependent depends gone => ?_⟩
      apply stops.not_done fun done => (served.of_done done).1
      rcases reflTransGen_iff_eq_or_transGen.mp depends with rfl | depends
      · exact gone
      · exact (served.of_done gone).2 name depends
    · refine ⟨fun fresh => ?_, fun old => ends.proceeds.done_mono old⟩
      rcases ends.proceeds.of_done fresh with old | ⟨_, same⟩
      · exact old
      · exact absurd same differs

/-- Two passes stand between the first and the last, and one of them waits for a graph. -/
def diamond : List Pass :=
  let note (name : String) (needs : List String) : Pass :=
    { name, summary := "", needs, runner := fun _ _ _ _ => ⟨[], .ok (.other name "")⟩ }
  let shape : Pass :=
    { name := "shape", summary := "", needs := ["base"]
      runner := fun _ _ results function =>
        ⟨[], (results.graph function).map fun _ => .other "shape" ""⟩ }
  [note "base" [], note "left" ["base"], shape, note "top" ["left", "shape"]]

/-- The first run ends before the graph is there, the second goes on where it ended. -/
def diamondRequests : List Request :=
  diamond.map .register ++
    [.run {} 7 ["top"], .addGraph 7 {}, .run {} 7 ["left", "top"], .run {} 7 ["top", "base"]]

theorem serveAll_in_order_diamond :
    ∃ s, Session.serveAll { pipeline := { limits := {} } } diamondRequests = s ∧
      Pass.Acyclic s.pipeline.passes ∧ ("top", 7) ∈ s.pipeline.done ∧
      (∀ need, TransGen (Needs s.pipeline.passes) "top" need → (need, 7) ∈ s.pipeline.done) ∧
      s.pipeline.done = completed s.history ∧ s.history.length = 5 ∧
      ∃ e t, s.pipeline.run {} 8 ["top"] = (.error e, t) ∧ ("left", 8) ∈ t.pipeline.done ∧
        ∃ name, StopsAt {} 8 t e name ∧
          ∀ dependent, ReflTransGen (Needs t.pipeline.passes) dependent name →
            (dependent, 8) ∉ t.pipeline.done := by
  have acyclic : Pass.Acyclic
      (Session.serveAll { pipeline := { limits := {} } } diamondRequests).pipeline.passes := by
    have passes : (Session.serveAll { pipeline := { limits := {} } } diamondRequests).pipeline.passes =
        ⟨diamond.map fun pass => (pass.name, pass)⟩ := rfl
    rw [passes]
    exact acyclic_of_rank (fun name => ["base", "left", "shape", "top"].idxOf name) (by decide)
  have top : ("top", 7) ∈
      (Session.serveAll { pipeline := { limits := {} } } diamondRequests).pipeline.done := by decide
  obtain ⟨⟨done, _⟩, depends, _, runs⟩ := serveAll_in_order {} diamondRequests _ rfl acyclic
  obtain ⟨_, stops, _⟩ := runs {} 8 ["top"] _ _ rfl
  exact ⟨_, rfl, acyclic, top, (depends _ _ top).2, done, rfl, .missingResult .graph, _, rfl,
    by decide, stops _ rfl⟩

end Liveness.Pipeline
