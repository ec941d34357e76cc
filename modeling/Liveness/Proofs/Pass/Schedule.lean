import Mathlib.Data.List.Perm.Subperm
import Mathlib.Logic.Relation
import Liveness.Pass.Pipeline
import Liveness.Proofs.Except
import Liveness.Proofs.Table

/-! Each pass after what it needs, and once.

A run does one thing only, again and again: it invokes a pass that is ready, that is, one that
is registered, is not done for the function, and has all it needs done. A history in which every
invocation was ready when it was made (`Orderly`) tells everything about the passes that are
done: they are those that succeeded in it, each of them succeeded once, and nothing of what
they need, however far away, is missing. A run keeps its history orderly, and so do the requests
between runs, since a pass that has been invoked is never replaced.

That a pass is not done when its turn comes is where dependencies must not go in circles: what
it needs has been run in between, and the pass itself could have been among that. -/
namespace Liveness

namespace Invocation

/-- The passes that succeeded in a history, with the function. -/
def completed (history : List Invocation) : List (String × NodeId) :=
  (history.filter (·.succeeded)).map fun i => (i.pass, i.function)

theorem completed_cons (i : Invocation) (history : List Invocation) :
    completed (i :: history) =
      if i.succeeded then (i.pass, i.function) :: completed history else completed history := by
  unfold completed
  rw [List.filter_cons]
  split <;> rfl

theorem completed_append (later earlier : List Invocation) :
    completed (later ++ earlier) = completed later ++ completed earlier := by
  simp [completed]

theorem mem_completed {history : List Invocation} {name : String} {function : NodeId} :
    (name, function) ∈ completed history ↔
      ∃ i ∈ history, i.succeeded = true ∧ i.pass = name ∧ i.function = function := by
  simp [completed, and_assoc]

end Invocation

namespace Pass
open Relation
open Invocation (completed completed_cons completed_append mem_completed)

/-- A pass asks for another to be run before it. -/
def Needs (passes : Table String Pass) (name need : String) : Prop :=
  ∃ pass, passes.find? name = some pass ∧ need ∈ pass.needs

/-- No pass waits for itself. -/
def Acyclic (passes : Table String Pass) : Prop := ∀ name, ¬ TransGen (Needs passes) name name

/-- Fewer passes make no new circles. -/
theorem Acyclic.of_kept {passes passes' : Table String Pass} (h : Acyclic passes')
    (kept : ∀ name pass, passes.find? name = some pass → passes'.find? name = some pass) :
    Acyclic passes := by
  have needs : ∀ a b, Needs passes a b → Needs passes' a b := by
    rintro a b ⟨pass, known, needs⟩
    exact ⟨pass, kept a pass known, needs⟩
  exact fun name circle => h name (TransGen.mono needs _ _ circle)

/-- Passes that need only passes of lower rank wait in no circle. -/
theorem acyclic_of_rank {passes : Table String Pass} (rank : String → Nat)
    (falls : ∀ e ∈ passes.entries, ∀ need ∈ e.2.needs, rank need < rank e.1) : Acyclic passes := by
  have one {name need : String} (h : Needs passes name need) : rank need < rank name := by
    obtain ⟨pass, known, needs⟩ := h
    obtain ⟨before, after, split, _⟩ := List.lookup_eq_some_iff.mp known
    exact falls (name, pass) (by rw [split]; simp) need needs
  have all {name need : String} (h : TransGen (Needs passes) name need) : rank need < rank name := by
    induction h with
    | single h => exact one h
    | tail _ h ih => exact Nat.lt_trans (one h) ih
  exact fun name circle => Nat.lt_irrefl _ (all circle)

/-- Passes are known by their own names. -/
def Named (passes : Table String Pass) : Prop :=
  ∀ name pass, passes.find? name = some pass → pass.name = name

/-- The turn of a pass has come. -/
structure Ready (passes : Table String Pass) (done : List (String × NodeId)) (name : String)
    (function : NodeId) : Prop where
  registered : ∃ pass, passes.find? name = some pass
  needed : ∀ need, Needs passes name need → (need, function) ∈ done
  new : (name, function) ∉ done

/-- Each invocation of a history, last first, was of a pass whose turn had come. -/
inductive Orderly (passes : Table String Pass) : List Invocation → Prop
  | nil : Orderly passes []
  | cons {i : Invocation} {earlier : List Invocation} :
      Ready passes (completed earlier) i.pass i.function → Orderly passes earlier →
      Orderly passes (i :: earlier)

namespace Orderly
variable {passes : Table String Pass}

theorem of_append {later earlier : List Invocation} (h : Orderly passes (later ++ earlier)) :
    Orderly passes earlier := by
  induction later with
  | nil => exact h
  | cons i later ih =>
    cases h with
    | cons _ rest => exact ih rest

theorem ready {later earlier : List Invocation} {i : Invocation}
    (h : Orderly passes (later ++ i :: earlier)) :
    Ready passes (completed earlier) i.pass i.function := by
  cases h.of_append with
  | cons ready _ => exact ready

/-- What has succeeded is registered, and what it needs has succeeded before. -/
theorem of_completed {history : List Invocation} (h : Orderly passes history) {name : String}
    {function : NodeId} (done : (name, function) ∈ completed history) :
    (∃ pass, passes.find? name = some pass) ∧
      ∀ need, Needs passes name need → (need, function) ∈ completed history := by
  obtain ⟨i, hi, _, rfl, rfl⟩ := mem_completed.mp done
  obtain ⟨later, earlier, rfl⟩ := List.append_of_mem hi
  refine ⟨h.ready.registered, fun need needs => ?_⟩
  rw [completed_append, completed_cons]
  have := h.ready.needed need needs
  split <;> simp [this]

/-- Whatever a pass that has succeeded depends on has succeeded. -/
theorem completed_of_transGen {history : List Invocation} (h : Orderly passes history)
    {name need : String} {function : NodeId} (done : (name, function) ∈ completed history)
    (depends : TransGen (Needs passes) name need) : (need, function) ∈ completed history := by
  induction depends with
  | single needs => exact (h.of_completed done).2 _ needs
  | tail _ needs ih => exact (h.of_completed ih).2 _ needs

/-- Whatever a pass depends on had succeeded when it was invoked. -/
theorem needed {later earlier : List Invocation} {i : Invocation} {need : String}
    (h : Orderly passes (later ++ i :: earlier))
    (depends : TransGen (Needs passes) i.pass need) : (need, i.function) ∈ completed earlier := by
  have before : Orderly passes earlier := by
    cases h.of_append with
    | cons _ rest => exact rest
  induction depends with
  | single needs => exact h.ready.needed _ needs
  | tail _ needs ih => exact (before.of_completed ih).2 _ needs

/-- A pass that has succeeded is not invoked again. -/
theorem not_again {later earlier : List Invocation} {i j : Invocation}
    (h : Orderly passes (later ++ i :: earlier)) (succeeded : i.succeeded = true) (hj : j ∈ later) :
    (j.pass, j.function) ≠ (i.pass, i.function) := by
  intro same
  obtain ⟨last, between, rfl⟩ := List.append_of_mem hj
  rw [List.append_assoc, List.cons_append] at h
  have new := h.ready.new
  rw [same] at new
  exact new (mem_completed.mpr ⟨i, by simp, succeeded, rfl, rfl⟩)

theorem nodup_completed {history : List Invocation} (h : Orderly passes history) :
    (completed history).Nodup := by
  induction h with
  | nil => exact List.nodup_nil
  | cons ready _ ih =>
    rw [completed_cons]
    split
    · exact List.nodup_cons.mpr ⟨ready.new, ih⟩
    · exact ih

/-- New passes do not disturb a history. -/
theorem mono {passes' : Table String Pass} {history : List Invocation} (h : Orderly passes history)
    (kept : ∀ name pass, passes.find? name = some pass → passes'.find? name = some pass) :
    Orderly passes' history := by
  induction h with
  | nil => exact .nil
  | cons ready _ ih =>
    obtain ⟨pass, known⟩ := ready.registered
    refine .cons ⟨⟨pass, kept _ _ known⟩, ?_, ready.new⟩ ih
    rintro need ⟨pass', known', needs⟩
    obtain rfl := Option.some.inj ((kept _ _ known).symm.trans known')
    exact ready.needed need ⟨pass, known, needs⟩

end Orderly
end Pass

/-! ### Results of a function -/

/-- Two stores have the same results for a function. -/
structure Results.Agree (function : NodeId) (r r' : Results) : Prop where
  graph : r'.graph function = r.graph function
  escaped : r'.escaped function = r.escaped function
  live : r'.live function = r.live function
  other : ∀ kind, r'.other kind function = r.other kind function

namespace Results.Agree
variable {function : NodeId} {r r' r'' : Results}

theorem refl (function : NodeId) (r : Results) : Agree function r r := ⟨rfl, rfl, rfl, fun _ => rfl⟩

theorem trans (h : Agree function r r') (h' : Agree function r' r'') : Agree function r r'' where
  graph := h'.graph.trans h.graph
  escaped := h'.escaped.trans h.escaped
  live := h'.live.trans h.live
  other kind := (h'.other kind).trans (h.other kind)

/-- A result for one function is none for another. -/
theorem add {owner : NodeId} (differs : function ≠ owner) (r : Results) (result : Result) :
    Agree function r (r.add owner result) := by
  have key : (function == owner) = false := beq_eq_false_iff_ne.mpr differs
  have pair (kind kind' : String) : ((kind, function) == (kind', owner)) = false :=
    beq_eq_false_iff_ne.mpr fun same => differs (congrArg Prod.snd same)
  cases result <;> constructor <;>
    simp [Results.add, Results.graph, Results.escaped, Results.live, Results.other,
      Table.find?_insert, key, pair]

end Results.Agree

/-! ### Runs -/

namespace Pipeline
open Pass Relation
open Invocation (completed completed_append mem_completed)

/-- What an invocation that fails does: it is recorded. -/
theorem run_invoke_error {p : Program} {function : NodeId} {pass : Pass} {s : Session}
    {e : AnalysisError}
    (h : (pass.runner p s.pipeline.limits s.pipeline.results function).result = .error e) :
    (invoke p function pass).run s =
      (.error e, { s with
        history := ⟨pass.name, function,
          (pass.runner p s.pipeline.limits s.pipeline.results function).events, false⟩ ::
            s.history }) := by
  unfold invoke
  simp only [ExceptT.run_mk, h]

/-- What an invocation that succeeds does: its result is kept, and the pass is done. -/
theorem run_invoke_ok {p : Program} {function : NodeId} {pass : Pass} {s : Session}
    {result : Result}
    (h : (pass.runner p s.pipeline.limits s.pipeline.results function).result = .ok result) :
    (invoke p function pass).run s =
      (.ok (),
        { pipeline := { s.pipeline with
            results := s.pipeline.results.add function result
            done := (pass.name, function) :: s.pipeline.done }
          history := ⟨pass.name, function,
            (pass.runner p s.pipeline.limits s.pipeline.results function).events, true⟩ ::
              s.history }) := by
  unfold invoke
  simp only [ExceptT.run_mk, h]

/-- In either case one invocation is recorded, its pass is done if it succeeded, and nothing else
changes but the results of the function. -/
theorem exists_invocation (p : Program) (function : NodeId) (pass : Pass) (s : Session) :
    ∃ i : Invocation, i.pass = pass.name ∧ i.function = function ∧
      ((invoke p function pass).run s).2.history = i :: s.history ∧
      ((invoke p function pass).run s).2.pipeline.done = completed [i] ++ s.pipeline.done ∧
      ((invoke p function pass).run s).2.pipeline.passes = s.pipeline.passes ∧
      ((invoke p function pass).run s).2.pipeline.limits = s.pipeline.limits ∧
      ∀ other, other ≠ function → Results.Agree other s.pipeline.results
        ((invoke p function pass).run s).2.pipeline.results := by
  cases outcome : (pass.runner p s.pipeline.limits s.pipeline.results function).result with
  | error e =>
    rw [run_invoke_error outcome]
    exact ⟨_, rfl, rfl, rfl, rfl, rfl, rfl, fun other _ => .refl other _⟩
  | ok result =>
    rw [run_invoke_ok outcome]
    exact ⟨_, rfl, rfl, rfl, rfl, rfl, rfl, fun other differs => .add differs _ _⟩

/-- From one moment of a run to a later one: passes whose turn has come are invoked one after the
other, all of them among those that were asked for. -/
inductive Proceeds (p : Program) (function : NodeId) (asked : String → Prop) (s : Session) :
    Session → Prop
  | rest : Proceeds p function asked s s
  | invoke {t : Session} {pass : Pass} :
      Proceeds p function asked s t → t.pipeline.passes.find? pass.name = some pass →
      asked pass.name → Ready t.pipeline.passes t.pipeline.done pass.name function →
      Proceeds p function asked s ((invoke p function pass).run t).2

namespace Proceeds
variable {p : Program} {function : NodeId} {asked : String → Prop} {s t u : Session}

theorem trans (first : Proceeds p function asked s t) (second : Proceeds p function asked t u) :
    Proceeds p function asked s u := by
  induction second with
  | rest => exact first
  | invoke _ known wanted ready ih => exact .invoke ih known wanted ready

theorem mono {asked' : String → Prop} (h : Proceeds p function asked s t)
    (more : ∀ name, asked name → asked' name) : Proceeds p function asked' s t := by
  induction h with
  | rest => exact .rest
  | invoke _ known wanted ready ih => exact .invoke ih known (more _ wanted) ready

theorem passes_eq (h : Proceeds p function asked s t) : t.pipeline.passes = s.pipeline.passes := by
  induction h with
  | rest => rfl
  | @invoke t pass _ _ _ _ ih =>
    obtain ⟨_, _, _, _, _, passes, _⟩ := exists_invocation p function pass t
    exact passes.trans ih

theorem limits_eq (h : Proceeds p function asked s t) : t.pipeline.limits = s.pipeline.limits := by
  induction h with
  | rest => rfl
  | @invoke t pass _ _ _ _ ih =>
    obtain ⟨_, _, _, _, _, _, limits, _⟩ := exists_invocation p function pass t
    exact limits.trans ih

/-- Other functions see nothing of a run. -/
theorem agree (h : Proceeds p function asked s t) {other : NodeId} (differs : other ≠ function) :
    Results.Agree other s.pipeline.results t.pipeline.results := by
  induction h with
  | rest => exact .refl other _
  | @invoke t pass _ _ _ _ ih =>
    obtain ⟨_, _, _, _, _, _, _, agree⟩ := exists_invocation p function pass t
    exact ih.trans (agree other differs)

/-- The history grows by invocations of what was asked for, on the function, and what is done
by those among them that succeeded. -/
theorem exists_history (h : Proceeds p function asked s t) :
    ∃ new, t.history = new ++ s.history ∧ t.pipeline.done = completed new ++ s.pipeline.done ∧
      ∀ i ∈ new, asked i.pass ∧ i.function = function := by
  induction h with
  | rest => exact ⟨[], rfl, rfl, by simp⟩
  | @invoke t pass _ _ wanted _ ih =>
    obtain ⟨new, history, done, all⟩ := ih
    obtain ⟨i, name, on, history', done', _⟩ := exists_invocation p function pass t
    refine ⟨i :: new, ?_, ?_, ?_⟩
    · rw [history', history, List.cons_append]
    · rw [done', done, ← List.append_assoc, ← completed_append, List.singleton_append]
    · intro j hj
      rcases List.mem_cons.mp hj with rfl | hj
      · exact ⟨name ▸ wanted, on⟩
      · exact all j hj

/-- What is done stays done. -/
theorem done_mono (h : Proceeds p function asked s t) {entry : String × NodeId}
    (done : entry ∈ s.pipeline.done) : entry ∈ t.pipeline.done := by
  obtain ⟨new, _, done', _⟩ := h.exists_history
  rw [done']
  exact List.mem_append_right _ done

/-- Only what was asked for gets done, and only for the function. -/
theorem of_done (h : Proceeds p function asked s t) {name : String} {on : NodeId}
    (done : (name, on) ∈ t.pipeline.done) :
    (name, on) ∈ s.pipeline.done ∨ asked name ∧ on = function := by
  obtain ⟨new, _, done', all⟩ := h.exists_history
  rw [done'] at done
  rcases List.mem_append.mp done with fresh | old
  · obtain ⟨i, hi, _, rfl, rfl⟩ := mem_completed.mp fresh
    exact .inr (all i hi)
  · exact .inl old

/-- A run does the same whatever happened before it. -/
theorem after (h : Proceeds p function asked s t) (before : List Invocation) :
    Proceeds p function asked ⟨s.pipeline, s.history ++ before⟩ ⟨t.pipeline, t.history ++ before⟩ := by
  induction h with
  | rest => exact .rest
  | @invoke t pass _ known wanted ready ih =>
    have same : ((Pipeline.invoke p function pass).run ⟨t.pipeline, t.history ++ before⟩).2 =
        ⟨((Pipeline.invoke p function pass).run t).2.pipeline,
          ((Pipeline.invoke p function pass).run t).2.history ++ before⟩ := by
      cases outcome : (pass.runner p t.pipeline.limits t.pipeline.results function).result with
      | error e =>
        rw [run_invoke_error outcome,
          run_invoke_error (s := ⟨t.pipeline, t.history ++ before⟩) outcome]
        rfl
      | ok result =>
        rw [run_invoke_ok outcome, run_invoke_ok (s := ⟨t.pipeline, t.history ++ before⟩) outcome]
        rfl
    rw [← same]
    exact .invoke ih known wanted ready

end Proceeds

/-- The pass at which a run ended with an error: there is none of that name, or it was the last
to be invoked and its error is the error. -/
inductive StopsAt (p : Program) (function : NodeId) (t : Session) (e : AnalysisError) : String → Prop
  | unregistered {name : String} :
      t.pipeline.passes.find? name = none → e = .unregisteredPass name →
      StopsAt p function t e name
  | failed {pass : Pass} {i : Invocation} {earlier : List Invocation} :
      t.pipeline.passes.find? pass.name = some pass →
      Ready t.pipeline.passes t.pipeline.done pass.name function →
      (pass.runner p t.pipeline.limits t.pipeline.results function).result = .error e →
      t.history = i :: earlier → i.pass = pass.name → i.function = function →
      i.succeeded = false → StopsAt p function t e pass.name

/-- How a step that is to get passes done can end: they are done, or it stopped at one of those
that it had to run. -/
structure Ends (p : Program) (function : NodeId) (asked : String → Prop) (wanted : List String)
    (s : Session) (r : Except AnalysisError Unit × Session) : Prop where
  proceeds : Proceeds p function asked s r.2
  done : r.1 = .ok () → ∀ name ∈ wanted, (name, function) ∈ r.2.pipeline.done
  stops : ∀ e, r.1 = .error e → ∃ name, asked name ∧ StopsAt p function r.2 e name

section
variable {p : Program} {function : NodeId} {asked : String → Prop} {s : Session}

theorem Ends.mono {asked' : String → Prop} {wanted wanted' : List String}
    {r : Except AnalysisError Unit × Session} (h : Ends p function asked wanted s r)
    (more : ∀ name, asked name → asked' name) (fewer : wanted' ⊆ wanted) :
    Ends p function asked' wanted' s r where
  proceeds := h.proceeds.mono more
  done ok name wanted := h.done ok name (fewer wanted)
  stops e he := by
    obtain ⟨name, wanted, stops⟩ := h.stops e he
    exact ⟨name, more name wanted, stops⟩

/-- One step after the other. -/
theorem Ends.andThen {m k : Action Unit} {wanted wanted' : List String}
    (first : Ends p function asked wanted s (m.run s))
    (second : (m.run s).1 = .ok () →
      Ends p function asked wanted' (m.run s).2 (k.run (m.run s).2)) :
    Ends p function asked (wanted ++ wanted') s ((m >>= fun _ => k).run s) := by
  rw [run_bind]
  cases hm : m.run s with
  | mk result t =>
    rw [hm] at first second
    cases result with
    | error e => exact ⟨first.proceeds, fun ok => (by cases ok), first.stops⟩
    | ok _ =>
      have second := second rfl
      refine ⟨first.proceeds.trans second.proceeds, fun ok name wanted => ?_, second.stops⟩
      rcases List.mem_append.mp wanted with early | late
      · exact second.proceeds.done_mono (first.done rfl name early)
      · exact second.done ok name late

/-- A step for each of several passes. -/
theorem ends_forM {passes : Table String Pass} {visit : String → Action Unit} {names : List String}
    (each : ∀ name ∈ names, ∀ t : Session, t.pipeline.passes = passes →
      Ends p function asked [name] t ((visit name).run t)) (hs : s.pipeline.passes = passes) :
    Ends p function asked names s ((names.forM visit).run s) := by
  induction names generalizing s with
  | nil => exact ⟨.rest, fun _ name wanted => (by cases wanted), fun e he => (by cases he)⟩
  | cons name names ih =>
    rw [List.forM_eq_forM, List.forM_cons, ← List.forM_eq_forM]
    have first := each name (by simp) s hs
    exact first.andThen fun _ => ih (fun name' h => each name' (by simp [h]))
      (first.proceeds.passes_eq.trans hs)

theorem run_runPass (p : Program) (function : NodeId) (depth : Nat) (name : String) (s : Session) :
    (runPass p function (depth + 1) name).run s =
      match s.pipeline.passes.find? name with
      | none => (.error (.unregisteredPass name), s)
      | some pass =>
        if (name, function) ∈ s.pipeline.done then (.ok (), s)
        else (pass.needs.forM (runPass p function depth) >>= fun _ => invoke p function pass).run s := by
  rw [runPass, run_bind]
  show (match s.pipeline.passes.find? name with
    | none => _
    | some pass => _ : Action Unit).run s = _
  cases s.pipeline.passes.find? name with
  | none => rfl
  | some pass =>
    dsimp only
    split <;> rfl

theorem passes_forM {visit : String → Action Unit}
    (each : ∀ name s, ((visit name).run s).2.pipeline.passes = s.pipeline.passes)
    (names : List String) (s : Session) :
    ((names.forM visit).run s).2.pipeline.passes = s.pipeline.passes := by
  induction names generalizing s with
  | nil => rfl
  | cons name names ih =>
    rw [List.forM_eq_forM, List.forM_cons, ← List.forM_eq_forM, run_bind]
    have first := each name s
    cases hm : (visit name).run s with
    | mk result t =>
      rw [hm] at first
      cases result with
      | error e => exact first
      | ok _ => exact (ih t).trans first

/-- No run registers or forgets a pass, not even one that goes in circles. -/
theorem passes_runPass (p : Program) (function : NodeId) (depth : Nat) (name : String) (s : Session) :
    ((runPass p function depth name).run s).2.pipeline.passes = s.pipeline.passes := by
  induction depth generalizing name s with
  | zero => rfl
  | succ depth ih =>
    rw [run_runPass]
    split
    · rfl
    · next pass _ =>
      split
      · rfl
      · rw [run_bind]
        have before := passes_forM ih pass.needs s
        cases hm : (pass.needs.forM (runPass p function depth)).run s with
        | mk result t =>
          rw [hm] at before
          cases result with
          | error e => exact before
          | ok _ =>
            obtain ⟨_, _, _, _, _, passes, _⟩ := exists_invocation p function pass t
            exact passes.trans before

theorem passes_run (l : Pipeline) (p : Program) (function : NodeId) (names : List String) :
    (l.run p function names).2.pipeline.passes = l.passes :=
  passes_forM (passes_runPass p function _) names { pipeline := l }

/-- An invocation gets its pass done, or stops there. -/
theorem ends_invoke {pass : Pass} (known : s.pipeline.passes.find? pass.name = some pass)
    (wanted : asked pass.name)
    (ready : Ready s.pipeline.passes s.pipeline.done pass.name function) :
    Ends p function asked [pass.name] s ((invoke p function pass).run s) where
  proceeds := .invoke .rest known wanted ready
  done ok name wanted := by
    obtain rfl := List.mem_singleton.mp wanted
    cases outcome : (pass.runner p s.pipeline.limits s.pipeline.results function).result with
    | error e =>
      rw [run_invoke_error outcome] at ok
      cases ok
    | ok result =>
      rw [run_invoke_ok outcome]
      exact List.mem_cons_self
  stops e failed := by
    refine ⟨pass.name, wanted, ?_⟩
    cases outcome : (pass.runner p s.pipeline.limits s.pipeline.results function).result with
    | error e' =>
      rw [run_invoke_error outcome] at failed ⊢
      cases failed
      exact .failed known ready outcome rfl rfl rfl rfl
    | ok result =>
      rw [run_invoke_ok outcome] at failed
      cases failed

/-- Registered passes without repetition are at most as many as there are passes. -/
theorem length_le_size {passes : Table String Pass} {names : List String} (nodup : names.Nodup)
    (registered : ∀ name ∈ names, ∃ pass, passes.find? name = some pass) :
    names.length ≤ passes.size := by
  have keys : names ⊆ passes.keys := by
    intro name h
    obtain ⟨pass, known⟩ := registered name h
    obtain ⟨before, after, split, _⟩ := List.lookup_eq_some_iff.mp known
    rw [Table.keys, split]
    simp
  have := (List.subperm_of_subset nodup keys).length_le
  simpa [Table.keys, Table.size] using this

/-- The passes that wait for one are registered, all different, and depend on it. -/
structure Waiting (passes : Table String Pass) (waiting : List String) (name : String) : Prop where
  nodup : waiting.Nodup
  registered : ∀ w ∈ waiting, ∃ pass, passes.find? w = some pass
  depends : ∀ w ∈ waiting, TransGen (Needs passes) w name

theorem Waiting.nil (passes : Table String Pass) (name : String) : Waiting passes [] name :=
  ⟨List.nodup_nil, by simp, by simp⟩

/-- A pass with a need waits for it too. -/
theorem Waiting.cons {passes : Table String Pass} {waiting : List String} {name need : String}
    (h : Waiting passes waiting name) (acyclic : Pass.Acyclic passes)
    (needs : Needs passes name need) : Waiting passes (name :: waiting) need where
  nodup := List.nodup_cons.mpr ⟨fun here => acyclic _ (h.depends _ here), h.nodup⟩
  registered w hw := by
    rcases List.mem_cons.mp hw with rfl | hw
    · obtain ⟨pass, known, _⟩ := needs
      exact ⟨pass, known⟩
    · exact h.registered w hw
  depends w hw := by
    rcases List.mem_cons.mp hw with rfl | hw
    · exact .single needs
    · exact (h.depends w hw).tail needs

/-- A pass is invoked once what it needs is done. What is run for that is below the pass, so the
pass is not among it. -/
theorem Ends.invoke {passes : Table String Pass} (acyclic : Pass.Acyclic passes)
    (hs : s.pipeline.passes = passes) {pass : Pass} (known : passes.find? pass.name = some pass)
    (undone : (pass.name, function) ∉ s.pipeline.done) {m : Action Unit}
    (before : Ends p function (TransGen (Needs passes) pass.name) pass.needs s (m.run s)) :
    Ends p function (ReflTransGen (Needs passes) pass.name) [pass.name] s
      ((m >>= fun _ => Pipeline.invoke p function pass).run s) := by
  refine ((before.mono (fun _ => TransGen.to_reflTransGen) (List.Subset.refl _)).andThen
    fun ok => ?_).mono (fun _ h => h) (List.subset_append_right _ _)
  have passes_eq := before.proceeds.passes_eq.trans hs
  refine ends_invoke (passes_eq ▸ known) .refl ⟨⟨pass, passes_eq ▸ known⟩, ?_, ?_⟩
  · rintro need ⟨pass', known', hneed⟩
    rw [passes_eq] at known'
    obtain rfl := Option.some.inj (known.symm.trans known')
    exact before.done ok need hneed
  · intro done
    rcases before.proceeds.of_done done with old | ⟨below, _⟩
    · exact undone old
    · exact acyclic _ below

/-- Running a pass gets it done or stops at one of those it depends on. The passes that wait for
it are all different, so the bound on the depth is never felt. -/
theorem ends_runPass {passes : Table String Pass} (acyclic : Pass.Acyclic passes)
    (named : Named passes) (depth : Nat) {name : String} {waiting : List String}
    (waits : Waiting passes waiting name) (room : passes.size < depth + waiting.length)
    (hs : s.pipeline.passes = passes) :
    Ends p function (ReflTransGen (Needs passes) name) [name] s
      ((runPass p function depth name).run s) := by
  induction depth generalizing name waiting s with
  | zero =>
    have := length_le_size waits.nodup waits.registered
    omega
  | succ depth ih =>
    rw [run_runPass, hs]
    cases known : passes.find? name with
    | none =>
      refine ⟨.rest, fun ok => (by cases ok), fun e he => ⟨name, .refl, ?_⟩⟩
      cases he
      exact .unregistered (hs ▸ known) rfl
    | some pass =>
      dsimp only
      split
      · next done =>
        refine ⟨.rest, fun _ other wanted => ?_, fun e he => (by cases he)⟩
        exact List.mem_singleton.mp wanted ▸ done
      · next undone =>
        obtain rfl := named name pass known
        refine Ends.invoke acyclic hs known undone (ends_forM (fun need hneed t ht => ?_) hs)
        have needs : Needs passes pass.name need := ⟨pass, known, hneed⟩
        have room' : passes.size < depth + (pass.name :: waiting).length := by
          rw [List.length_cons]
          omega
        exact (ih (waits.cons acyclic needs) room' ht).mono
          (fun other below => TransGen.head' needs below) (List.Subset.refl _)

/-- A run gets the passes done that it was asked for, or stops at one they depend on. -/
theorem ends_run (l : Pipeline) (acyclic : Pass.Acyclic l.passes) (named : Named l.passes)
    (p : Program) (function : NodeId) (names : List String) :
    Ends p function (fun name => ∃ wanted ∈ names, ReflTransGen (Needs l.passes) wanted name) names
      { pipeline := l } (l.run p function names) := by
  refine ends_forM (fun name hname t ht => ?_) rfl
  have room : l.passes.size < l.passes.size + 1 + ([] : List String).length := by simp
  exact (ends_runPass acyclic named _ (.nil _ name) room ht).mono
    (fun _ below => ⟨name, hname, below⟩) (List.Subset.refl _)

end
end Pipeline
end Liveness
