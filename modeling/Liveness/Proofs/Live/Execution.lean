import Liveness.Proofs.Live.Covering
import Liveness.Proofs.Live.Path

/-! No read is missed.

An execution goes along the edges of the graph and evaluates the node of each point it
passes. It can leave a point that throws part way through, and it can stop anywhere. If it
reads a variable that it has not written before, the variable is live where it began. The
argument goes back along the execution: a point either lists the variable as read, or it
does not write it for certain, and then what is live after the point is live before it. -/
namespace Liveness

/-- The name is read before it is written. -/
def ReadsFirst (x : String) (trace : List Action) : Prop :=
  ∃ before after, trace = before ++ .read x :: after ∧ .write x ∉ before

theorem ReadsFirst.mem {x : String} {trace : List Action} (h : ReadsFirst x trace) :
    .read x ∈ trace := by
  obtain ⟨before, after, rfl, _⟩ := h
  simp

/-- The first read is in the first part, or in the second with no write before. -/
theorem ReadsFirst.of_append {x : String} {first rest : List Action}
    (h : ReadsFirst x (first ++ rest)) :
    .read x ∈ first ∨ .write x ∉ first ∧ ReadsFirst x rest := by
  obtain ⟨before, after, eq, unwritten⟩ := h
  rcases List.append_eq_append_iff.mp eq with ⟨between, rfl, rfl⟩ | ⟨between, rfl, tail⟩
  · rw [List.mem_append, not_or] at unwritten
    exact .inr ⟨unwritten.1, between, after, rfl, unwritten.2⟩
  · cases between with
    | nil => exact .inr ⟨by simpa using unwritten, [], after, tail.symm, by simp⟩
    | cons action between =>
      obtain ⟨rfl, _⟩ := List.cons.inj tail
      exact .inl (by simp)

/-! ### Executions -/

namespace Tree

/-- What passing a point does. Nothing is evaluated at the implicit return. -/
def Performs (t : Tree) (g : FlowGraph) (i : Nat) (trace : List Action) : Prop :=
  match g.node? i with
  | some n => t.Evaluates n trace
  | none => trace = []

/-- What is done on a way through the graph that begins at a point. -/
inductive Executes (t : Tree) (g : FlowGraph) : Nat → List Action → Prop
  | stop {i : Nat} {part whole : List Action} :
      t.Performs g i whole → part <+: whole → Executes t g i part
  | go {i j : Nat} {part whole rest : List Action} :
      i ≠ FlowGraph.exit → j ∈ g.successors i → t.Performs g i whole → part <+: whole →
      part = whole ∨ g.throws i = true → Executes t g j rest → Executes t g i (part ++ rest)

end Tree

/-! ### Variables and their names -/

namespace Analysis
open Access
variable {a : Analysis} {x : String} {k : Nat}

theorem tracked?_injective {y : String} (h : a.tracked? x = some k) (h' : a.tracked? y = some k) :
    x = y :=
  Table.idxOf?_injective (tracked?_eq_some.mp h).2 (tracked?_eq_some.mp h').2

/-- A tracked variable is in the first set if the list has its name among what is read. -/
theorem gen_of_reads (tracked : a.tracked? x = some k) (ordinary : x ≠ argumentsAlias)
    {accesses : List Access} (h : Reads accesses x) :
    (a.summary accesses).gen.contains k = true := by
  rw [contains_gen]
  rcases h with h | h
  · exact ⟨_, h, readBy?_eq_some.mpr ⟨x, tracked, .inr ⟨rfl, by simp [isAlias, ordinary]⟩⟩⟩
  · exact ⟨_, h, tracked⟩

/-- A tracked variable is in the second set only if the list has its name written. -/
theorem write_of_kill (tracked : a.tracked? x = some k) {accesses : List Access}
    (h : (a.summary accesses).kill.contains k = true) : .write x ∈ accesses := by
  obtain ⟨access, mem, written⟩ := (contains_kill accesses k).mp h
  obtain ⟨y, tracked', rfl⟩ := writtenBy?_eq_some.mp written
  exact tracked?_injective tracked tracked' ▸ mem

/-! ### Going back along an execution -/

section Executes
variable (acyclic : a.program.tree.Acyclic) (laidOut : a.program.tree.LaidOut)
  (plain : a.program.tree.PlainTargets)
include acyclic laidOut plain

/-- What a point contributes covers what passing it does, and if it throws, that it does
nothing. -/
theorem effect_covers {i : Nat} {e : Solver.GenKill} (he : a.effect i = .ok e)
    {trace : List Action} (h : a.program.tree.Performs a.graph i trace) :
    ∃ accesses, e = a.summary accesses ∧ Covers accesses trace ∧
      (a.graph.throws i = true → Covers accesses []) := by
  unfold effect at he
  unfold Tree.Performs at h
  split at he
  · next n hn =>
    rw [hn] at h
    obtain ⟨accesses, listed, rfl⟩ := map_eq_ok.mp he
    refine ⟨accesses, rfl, ?_, fun throws => ?_⟩
    · exact Tree.covers_of_evaluates acyclic laidOut plain n _ _ h accesses listed
    · rw [throws] at listed
      exact (Tree.backed_accessesAs listed).covers_nil
  · next hn =>
    rw [hn] at h
    exact ⟨[], (Except.ok.inj he).symm, h ▸ .nil, fun _ => .nil⟩

/-- What is read before it is written is live where the execution begins. -/
theorem live_of_executes (closed : a.graph.Closed) {limit : Nat} {s : Solver.Solution BitSet}
    (h : (a.run limit).result = .ok s) (tracked : a.tracked? x = some k)
    (ordinary : x ≠ argumentsAlias) {i : Nat} (hi : i < a.graph.size) {trace : List Action}
    (executes : a.program.tree.Executes a.graph i trace) (reads : ReadsFirst x trace) :
    ∃ t, s.before? i = some t ∧ t.contains k = true := by
  induction executes with
  | @stop i part whole performs begun =>
    obtain ⟨before, _, e, hb, _, he, members⟩ := live_equations closed h hi
    obtain ⟨accesses, rfl, covers, _⟩ := effect_covers acyclic laidOut plain he performs
    have listed := covers.reads x (begun.subset reads.mem)
    exact ⟨before, hb, (members k).1.mpr (.inl (gen_of_reads tracked ordinary listed))⟩
  | @go i j part whole rest onward next performs begun complete _ ih =>
    obtain ⟨before, after, e, hb, _, he, members⟩ := live_equations closed h hi
    obtain ⟨accesses, rfl, covers, skipped⟩ := effect_covers acyclic laidOut plain he performs
    -- A point that throws lists no write without a read, so it does not matter how far it got.
    have covers : Covers accesses part := by
      rcases complete with rfl | throws
      · exact covers
      · exact covers.of_begun begun (skipped throws)
    refine ⟨before, hb, (members k).1.mpr ?_⟩
    by_cases gen : (a.summary accesses).gen.contains k = true
    · exact .inl gen
    have unread : ¬ Reads accesses x := fun h => gen (gen_of_reads tracked ordinary h)
    rcases reads.of_append with read | ⟨unwritten, reads⟩
    · exact absurd (covers.reads x read) unread
    · have live := ih (closed.successor_lt next) reads
      refine .inr ⟨(members k).2.mpr ⟨onward, j, next, live⟩, ?_⟩
      by_contra kill
      have written := write_of_kill tracked (Bool.not_eq_false _ ▸ kill)
      rcases covers.writes x written with read | done
      · exact unread read
      · exact unwritten done

end Executes

/-- **No read is missed.** If an execution from a point reads a variable of the function that
neither escapes nor stands for all arguments, and reads it before writing it, the variable is
live before the point. -/
theorem isLiveBefore_of_readsFirst (p : Program) (acyclic : p.tree.Acyclic)
    (laidOut : p.tree.LaidOut) (plain : p.tree.PlainTargets) (g : FlowGraph) (closed : g.Closed)
    (fs bs : ScopeId) (escaped : Escaped) (limits : Limits) (a : Analysis)
    (ha : prepare p g fs bs escaped limits = .ok a) (limit : Nat) (r : LiveResult)
    (hr : (a.liveVariables limit).result = .ok r) (x : String) (known : x ∈ r.locals.keys)
    (inside : ∀ v ∈ r.escaped.vars, (p.scopes.var v).name ≠ x) (ordinary : x ≠ argumentsAlias)
    (n : Nat) (hn : n < g.size) (trace : List Action) (executes : p.tree.Executes g n trace)
    (reads : ReadsFirst x trace) : r.isLiveBefore n x = true := by
  obtain ⟨rfl, rfl⟩ := of_prepare ha
  obtain ⟨solved, locals, kept⟩ := run_of_liveVariables hr
  obtain ⟨k, hk⟩ := Table.exists_idxOf? known
  have tracked : a.tracked? x = some k := by
    rw [tracked?, if_neg, ← locals, hk]
    simpa [isEscaped, ← kept] using inside
  obtain ⟨t, ht, live⟩ :=
    live_of_executes acyclic laidOut plain closed solved tracked ordinary hn executes reads
  rw [LiveResult.isLiveBefore, hk, LiveResult.liveIn?, ht]
  exact live

/-- `for (o[k] of o) k -= o;`, where lowering `k` throws and the iteration goes on. -/
def sweep : Program where
  tree := ⟨#[{ kind := .name "o", parent := some 2 }, { kind := .name "k", parent := some 2 },
    { kind := .element, children := [0, 1], parent := some 7 },
    { kind := .name "o", parent := some 7 }, { kind := .name "k", parent := some 6 },
    { kind := .name "o", parent := some 6 },
    { kind := .assign .sub, children := [4, 5], parent := some 7 },
    { kind := .forOf, children := [2, 3, 6] }]⟩
  scopes :=
    { scopes := #[{ kind := .function, root := 7, children := [1], vars := ⟨[("o", 0), ("k", 1)]⟩ },
        { kind := .body, root := 7, parent := some 0 }]
      vars := #[{ name := "o", scope := 0, node := 0, kind := .param },
        { name := "k", scope := 0, node := 1, kind := .param }] }
  normalized := true

def sweepGraph : FlowGraph where
  points := #[.implicitReturn, .node 7, .node 6]
  edges := [⟨1, .onFalse, 0⟩, ⟨2, .onException, 1⟩, ⟨1, .onTrue, 2⟩]
  start := some 1

/-- Lowering `k` breaks off when its old value was read, and the next round fills `o[k]`. -/
theorem executes_sweep :
    sweep.tree.Executes sweepGraph 2 ([.read "k"] ++ [.read "o", .read "k"]) := by
  have value : sweep.tree.Evaluates 5 [.read "o"] := .name rfl
  have lower : sweep.tree.Performs sweepGraph 2
      ((if AssignOp.sub = .assign then [] else [.read "k"]) ++ [.read "o"] ++ [.write "k"]) := by
    show sweep.tree.Evaluates 6 _
    exact .assign rfl rfl rfl value
  have object : sweep.tree.Evaluates 0 [.read "o"] := .name rfl
  have key : sweep.tree.Evaluates 1 [.read "k"] := .name rfl
  have place : sweep.tree.Evaluates 2 ([.read "o"] ++ ([.read "k"] ++ [])) :=
    .operands rfl (.cons object (.cons key .nil))
  have round : sweep.tree.Performs sweepGraph 1 [.read "o", .read "k"] := by
    show sweep.tree.Evaluates 7 [.read "o", .read "k"]
    exact .fillTo rfl rfl rfl place
  exact .go (by decide) (by decide) lower ⟨[.read "o", .write "k"], rfl⟩ (.inr rfl)
    (.stop round (List.prefix_refl _))

theorem isLiveBefore_of_readsFirst_sweep :
    ∃ a r, prepare sweep sweepGraph 0 1 {} {} = .ok a ∧ (a.liveVariables 20).result = .ok r ∧
      ReadsFirst "o" [.read "k", .read "o", .read "k"] ∧ r.isLiveBefore 2 "o" = true := by
  have prepared : prepare sweep sweepGraph 0 1 {} {} =
      .ok ⟨sweep, sweepGraph, 0, 1, ⟨[("o", 0), ("k", 1)]⟩, {}, false⟩ := rfl
  have solved : (liveVariables
      ⟨sweep, sweepGraph, 0, 1, ⟨[("o", 0), ("k", 1)]⟩, {}, false⟩ 20).result =
      .ok ⟨⟨.backward, #[⟨⟨2, #[0]⟩, ⟨2, #[0]⟩⟩, ⟨⟨2, #[3]⟩, ⟨2, #[3]⟩⟩, ⟨⟨2, #[3]⟩, ⟨2, #[3]⟩⟩], 4⟩,
        ⟨[("o", 0), ("k", 1)]⟩, {}⟩ := rfl
  have reads : ReadsFirst "o" [.read "k", .read "o", .read "k"] :=
    ⟨[.read "k"], [.read "k"], rfl, by decide⟩
  refine ⟨_, _, prepared, solved, reads, ?_⟩
  exact isLiveBefore_of_readsFirst sweep (Tree.acyclic_of_lt (by decide)) (by decide) (by decide)
    sweepGraph (by decide) 0 1 {} {} _ prepared 20 _ solved "o" (by decide) (by decide) (by decide)
    2 (by decide) _ executes_sweep reads

/-- `function f(x) { { let x = 0; function g() { return x; } } return x; }` -/
def shadowed : Program where
  tree := ⟨#[{ kind := .number 0, parent := some 1 },
    { kind := .name "x", children := [0], parent := some 2 },
    { kind := .letDecl, children := [1], parent := some 9 },
    { kind := .name "x", parent := some 4 },
    { kind := .returnStmt, children := [3], parent := some 5 },
    { kind := .block, children := [4], parent := some 8 },
    { kind := .name "g", parent := some 8 }, { kind := .paramList, parent := some 8 },
    { kind := .function, children := [6, 7, 5], parent := some 9 },
    { kind := .block, children := [2, 8], parent := some 12 },
    { kind := .name "x", parent := some 11 },
    { kind := .returnStmt, children := [10], parent := some 12 },
    { kind := .block, children := [9, 11], parent := some 16 },
    { kind := .name "f", parent := some 16 }, { kind := .name "x", parent := some 15 },
    { kind := .paramList, children := [14], parent := some 16 },
    { kind := .function, children := [13, 15, 12] }]⟩
  normalized := true

/-- The same program with its scopes. -/
def shadowedScopes : Program where
  tree := shadowed.tree
  scopes :=
    { scopes := #[{ kind := .function, root := 16, children := [1], vars := ⟨[("x", 0)]⟩ },
        { kind := .body, root := 12, parent := some 0, children := [2] },
        { kind := .block, root := 9, parent := some 1, children := [3],
          vars := ⟨[("x", 1), ("g", 2)]⟩ },
        { kind := .function, root := 8, parent := some 2, children := [4] },
        { kind := .body, root := 5, parent := some 3 }]
      vars := #[{ name := "x", scope := 0, node := 14, kind := .param },
        { name := "x", scope := 2, node := 1, kind := .mutable },
        { name := "g", scope := 2, node := 6, kind := .function }]
      roots := ⟨[(16, 0), (12, 1), (9, 2), (8, 3), (5, 4)]⟩ }
  normalized := true

def shadowedGraph : FlowGraph where
  points := #[.implicitReturn, .node 11]
  edges := [⟨1, .always, 0⟩]
  start := some 1

/-- A variable that does not escape can have its reads missed, if an escaped one has its name: the
parameter is read on return, and the nested function captures the variable of the block. -/
theorem read_of_namesake_missed :
    shadowed.createScopes 16 = (.ok 0, shadowedScopes) ∧ shadowedScopes.tree.Acyclic ∧
    shadowedScopes.tree.LaidOut ∧ shadowedScopes.tree.PlainTargets ∧ shadowedGraph.Closed ∧
    ∃ escaped a r v, (shadowedScopes.escaped 0 1 .nothing).result = .ok escaped ∧
      prepare shadowedScopes shadowedGraph 0 1 escaped {} = .ok a ∧
      (a.liveVariables 20).result = .ok r ∧ r.locals.find? "x" = some v ∧
      r.escaped.contains v = false ∧
      shadowedScopes.tree.Executes shadowedGraph 1 [.read "x"] ∧ ReadsFirst "x" [.read "x"] ∧
      r.isLiveBefore 1 "x" = false := by
  have created : shadowed.createScopes 16 = (.ok 0, shadowedScopes) := by decide +kernel
  have escapes : (shadowedScopes.escaped 0 1 .nothing).result = .ok ⟨[1]⟩ := by decide +kernel
  have prepared : prepare shadowedScopes shadowedGraph 0 1 ⟨[1]⟩ {} =
      .ok ⟨shadowedScopes, shadowedGraph, 0, 1, ⟨[("x", 0), ("g", 2)]⟩, ⟨[1]⟩, false⟩ := rfl
  have solved : (liveVariables
      ⟨shadowedScopes, shadowedGraph, 0, 1, ⟨[("x", 0), ("g", 2)]⟩, ⟨[1]⟩, false⟩ 20).result =
      .ok ⟨⟨.backward, #[⟨⟨2, #[0]⟩, ⟨2, #[0]⟩⟩, ⟨⟨2, #[0]⟩, ⟨2, #[0]⟩⟩], 2⟩,
        ⟨[("x", 0), ("g", 2)]⟩, ⟨[1]⟩⟩ := rfl
  have returned : shadowedScopes.tree.Performs shadowedGraph 1 ([.read "x"] ++ []) := by
    show shadowedScopes.tree.Evaluates 11 _
    exact .operands rfl (.cons (.name rfl) .nil)
  exact ⟨created, Tree.acyclic_of_lt (by decide), by decide, by decide, by decide, _, _, _, 0,
    escapes, prepared, solved, rfl, rfl, .stop returned (List.prefix_refl _),
    ⟨[], [], rfl, by simp⟩, by decide⟩

end Analysis
end Liveness
