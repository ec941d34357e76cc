import Liveness.Live.Analysis
import Liveness.Proofs.BitSet
import Liveness.Proofs.Except
import Liveness.Proofs.Solver.Equations
import Liveness.Proofs.Table

/-! Live means read ahead.

Live sets are the solution of a bit-vector problem, and a bit of a solution has a plain
meaning: there is a walk from the point that ends where the variable is read and leaves only
points that do not certainly write it. A set bit has such a walk behind it at every moment
of the run, since bits are only ever set by a read at the point itself or handed over along
an edge. And along such a walk the equations hand the bit back to where it starts, however
long the walk is. -/
namespace Liveness

/-! ### Sets of an analysis -/

namespace Analysis
variable {a : Analysis}

theorem tracked?_eq_some {x : String} {k : Nat} :
    a.tracked? x = some k ↔ a.isEscaped x = false ∧ a.locals.idxOf? x = some k := by
  unfold tracked?
  split <;> simp_all

theorem tracked?_lt {name : String} {k : Nat} (h : a.tracked? name = some k) : k < a.width :=
  Table.lt_size_of_idxOf? (tracked?_eq_some.mp h).2

/-- An access reads a variable under its name, unless the name is evaluated and means all
arguments. -/
theorem readBy?_eq_some {y : Access} {k : Nat} : a.readBy? y = some k ↔
    ∃ x, a.tracked? x = some k ∧ (y = .read x ∨ y = .use x ∧ a.isAlias x = false) := by
  cases y with
  | use x => cases all : a.isAlias x <;> simp [readBy?, all]
  | read x => simp [readBy?]
  | write x => simp [readBy?]

theorem writtenBy?_eq_some {y : Access} {k : Nat} :
    a.writtenBy? y = some k ↔ ∃ x, a.tracked? x = some k ∧ y = .write x := by
  cases y <;> simp [writtenBy?]

theorem readBy?_lt {y : Access} {k : Nat} (h : a.readBy? y = some k) : k < a.width := by
  obtain ⟨x, tracked, _⟩ := readBy?_eq_some.mp h
  exact tracked?_lt tracked

theorem writtenBy?_lt {y : Access} {k : Nat} (h : a.writtenBy? y = some k) : k < a.width := by
  obtain ⟨x, tracked, _⟩ := writtenBy?_eq_some.mp h
  exact tracked?_lt tracked

theorem fits_setOf (a : Analysis) (members : List Nat) : (a.setOf members).Fits a.width :=
  (BitSet.fits_empty a.width).foldl_insert members

theorem contains_setOf {members : List Nat} (below : ∀ i ∈ members, i < a.width) (k : Nat) :
    (a.setOf members).contains k = true ↔ k ∈ members := by
  rw [setOf, BitSet.contains_foldl_insert (BitSet.fits_empty a.width) below]
  simp

/-- A variable is in the first set of a summary if some access reads it. -/
theorem contains_gen (accesses : List Access) (k : Nat) :
    (a.summary accesses).gen.contains k = true ↔ ∃ x ∈ accesses, a.readBy? x = some k := by
  rw [summary, contains_setOf, List.mem_filterMap]
  intro i hi
  obtain ⟨x, _, hx⟩ := List.mem_filterMap.mp hi
  exact readBy?_lt hx

/-- A variable is in the second set of a summary if some access writes it. -/
theorem contains_kill (accesses : List Access) (k : Nat) :
    (a.summary accesses).kill.contains k = true ↔ ∃ x ∈ accesses, a.writtenBy? x = some k := by
  rw [summary, contains_setOf, List.mem_filterMap]
  intro i hi
  obtain ⟨x, _, hx⟩ := List.mem_filterMap.mp hi
  exact writtenBy?_lt hx

/-- What a point does is the summary of some accesses. -/
theorem effect_eq_summary {i : Nat} {e : Solver.GenKill} (h : a.effect i = .ok e) :
    ∃ accesses, e = a.summary accesses := by
  unfold effect at h
  split at h
  · obtain ⟨accesses, _, rfl⟩ := map_eq_ok.mp h
    exact ⟨accesses, rfl⟩
  · exact ⟨[], (Except.ok.inj h).symm⟩

theorem fits_gen {i : Nat} {e : Solver.GenKill} (h : a.effect i = .ok e) : e.gen.Fits a.width := by
  obtain ⟨accesses, rfl⟩ := effect_eq_summary h
  exact a.fits_setOf _

theorem fits_kill {i : Nat} {e : Solver.GenKill} (h : a.effect i = .ok e) : e.kill.Fits a.width := by
  obtain ⟨accesses, rfl⟩ := effect_eq_summary h
  exact a.fits_setOf _

theorem flow_of_effect {i : Nat} {e : Solver.GenKill} (h : a.effect i = .ok e) (s : BitSet) :
    a.problem.flow i s = .ok (e.apply s) :=
  map_eq_ok.mpr ⟨e, h, rfl⟩

theorem contains_apply {i : Nat} {e : Solver.GenKill} (h : a.effect i = .ok e) {s : BitSet}
    (hs : s.Fits a.width) (k : Nat) :
    (e.apply s).contains k = (s.contains k && !e.kill.contains k || e.gen.contains k) := by
  rw [Solver.GenKill.apply, BitSet.contains_union (hs.diff e.kill) (fits_gen h).width_eq,
    BitSet.contains_diff hs (fits_kill h).width_eq]

/-- What flows through a point: what it reads, and what arrives there and it does not write. -/
theorem flow_ok {i : Nat} {s t : BitSet} (hs : s.Fits a.width) (h : a.problem.flow i s = .ok t) :
    ∃ e, a.effect i = .ok e ∧ t.Fits a.width ∧ ∀ k, t.contains k = true ↔
      e.gen.contains k = true ∨ s.contains k = true ∧ e.kill.contains k = false := by
  obtain ⟨e, he, rfl⟩ := map_eq_ok.mp h
  refine ⟨e, he, (hs.diff e.kill).union e.gen, fun k => ?_⟩
  rw [contains_apply he hs]
  simp [or_comm]

/-- Sets that arrive from several points are united. -/
theorem contains_join {sets : List BitSet} (fit : ∀ s ∈ sets, s.Fits a.width) (k : Nat) :
    (a.problem.join sets).contains k = true ↔ ∃ s ∈ sets, s.contains k = true := by
  show (sets.foldl BitSet.union (.empty a.width)).contains k = true ↔ _
  rw [BitSet.contains_foldl_union (BitSet.fits_empty a.width) fun s hs => (fit s hs).width_eq]
  simp

theorem fits_join (a : Analysis) (sets : List BitSet) : (a.problem.join sets).Fits a.width :=
  (BitSet.fits_empty a.width).foldl_union sets

/-! ### Reading ahead -/

/-- Some walk from the point ends at a read of the variable, and leaves only points that do not
certainly write it; no walk goes on after the implicit return. -/
def ReadsAhead (a : Analysis) (k i : Nat) : Prop :=
  ∃ left last, a.graph.Walk i left last ∧
    (∃ e, a.effect last = .ok e ∧ e.gen.contains k = true) ∧
    ∀ j ∈ left, j ≠ FlowGraph.exit ∧ ∃ e, a.effect j = .ok e ∧ e.kill.contains k = false

theorem readsAhead_here {k i : Nat} {e : Solver.GenKill} (he : a.effect i = .ok e)
    (gen : e.gen.contains k = true) : a.ReadsAhead k i :=
  ⟨[], i, .stay i, ⟨e, he, gen⟩, by simp⟩

theorem readsAhead_step {k i j : Nat} {e : Solver.GenKill} (he : a.effect i = .ok e)
    (kill : e.kill.contains k = false) (ordinary : i ≠ FlowGraph.exit)
    (next : j ∈ a.graph.successors i) (h : a.ReadsAhead k j) : a.ReadsAhead k i := by
  obtain ⟨left, last, walk, read, unwritten⟩ := h
  refine ⟨i :: left, last, .go next walk, read, fun m hm => ?_⟩
  rcases List.mem_cons.mp hm with rfl | hm
  · exact ⟨ordinary, e, he, kill⟩
  · exact unwritten m hm

/-- A bit is never set without a walk behind it, and sets keep their width. -/
theorem kept_readsAhead (a : Analysis) :
    Solver.Kept a.problem a.graph
      (fun i s => s.Fits a.width ∧ ∀ k, s.contains k = true →
        i ≠ FlowGraph.exit ∧ ∃ j ∈ a.graph.successors i, a.ReadsAhead k j)
      (fun i s => s.Fits a.width ∧ ∀ k, s.contains k = true → a.ReadsAhead k i) where
  boundary := ⟨BitSet.fits_empty a.width, fun k h => by simp [problem, Solver.genKill] at h⟩
  initial i := by
    have fits := BitSet.fits_empty a.width
    exact ⟨⟨fits, fun k h => by simp [problem, Solver.genKill] at h⟩,
      ⟨fits, fun k h => by simp [problem, Solver.genKill] at h⟩⟩
  copied i _ j s ordinary one h := by
    refine ⟨h.1, fun k hk => ⟨ordinary, j, ?_, h.2 k hk⟩⟩
    show j ∈ a.graph.feeders .backward i
    rw [show a.graph.feeders .backward i = [j] from one]
    simp
  joined i _ value ordinary _ h := by
    refine ⟨a.fits_join _, fun k hk => ⟨ordinary, ?_⟩⟩
    rw [contains_join] at hk
    · obtain ⟨s, hs, hk⟩ := hk
      obtain ⟨j, hj, rfl⟩ := List.mem_map.mp hs
      exact ⟨j, hj, (h j hj).2 k hk⟩
    · intro s hs
      obtain ⟨j, hj, rfl⟩ := List.mem_map.mp hs
      exact (h j hj).1
  flows i _ s t h ht := by
    obtain ⟨e, he, fits, members⟩ := flow_ok h.1 ht
    refine ⟨fits, fun k hk => ?_⟩
    rcases (members k).mp hk with gen | ⟨arrives, kill⟩
    · exact readsAhead_here he gen
    · obtain ⟨ordinary, j, next, ahead⟩ := h.2 k arrives
      exact readsAhead_step he kill ordinary next ahead

/-! ### The equations of a bit -/

/-- What a point gathers is live before some successor of it. -/
theorem contains_gather {cells : Array (Cell BitSet)} {i : Nat} (ordinary : i ≠ FlowGraph.exit)
    (some : a.graph.successors i ≠ [])
    (fits : ∀ j, (Solver.cell a.problem cells j).leaving.Fits a.width) (k : Nat) :
    (Solver.gather a.problem a.graph cells i).contains k = true ↔
      ∃ j ∈ a.graph.successors i, (Solver.cell a.problem cells j).leaving.contains k = true := by
  have gathers := Solver.gather_eq (p := a.problem) (g := a.graph) cells i
  rw [if_neg (show i ≠ a.graph.origin a.problem.direction from ordinary)] at gathers
  rw [gathers]
  match feeders : a.graph.successors i with
  | [] => exact absurd feeders some
  | [j] =>
    rw [show a.graph.feeders a.problem.direction i = [j] from feeders]
    simp
  | j :: m :: js =>
    rw [show a.graph.feeders a.problem.direction i = j :: m :: js from feeders, contains_join]
    · simp
    · intro t ht
      obtain ⟨l, _, rfl⟩ := List.mem_map.mp ht
      exact fits l

/-- In a solution a variable is live before a point if the point reads it, or if it is live
after the point and not certainly written there; and it is live after a point, other than the
implicit return, if it is live before one of its successors. -/
theorem live_equations (closed : a.graph.Closed) {limit : Nat} {s : Solver.Solution BitSet}
    (h : (a.run limit).result = .ok s) {i : Nat} (hi : i < a.graph.size) :
    ∃ before after e, s.before? i = some before ∧ s.after? i = some after ∧ a.effect i = .ok e ∧
      ∀ k, (before.contains k = true ↔
          e.gen.contains k = true ∨ after.contains k = true ∧ e.kill.contains k = false) ∧
        (after.contains k = true ↔ i ≠ FlowGraph.exit ∧
          ∃ j ∈ a.graph.successors i, ∃ t, s.before? j = some t ∧ t.contains k = true) := by
  obtain ⟨⟨origin, unfed⟩, settled⟩ := Solver.settled_of_solve closed h
  have fits := fun j => (a.kept_readsAhead.solve h j).2.1
  have before : ∀ j < a.graph.size, s.before? j = some (Solver.cell a.problem s.cells j).leaving :=
    fun j hj => Solver.before?_of_solve h hj
  have here := settled i hi
  obtain ⟨e, he, _, members⟩ := flow_ok (a.kept_readsAhead.solve h i).1.1 here.flows
  refine ⟨_, (Solver.cell a.problem s.cells i).arriving, e, before i hi,
    Solver.after?_of_solve h hi, he, fun k => ⟨members k, ?_⟩⟩
  have sent : (∃ j ∈ a.graph.successors i, ∃ t, s.before? j = some t ∧ t.contains k = true) ↔
      ∃ j ∈ a.graph.successors i, (Solver.cell a.problem s.cells j).leaving.contains k = true := by
    constructor
    · rintro ⟨j, hj, t, ht, hk⟩
      rw [before j (closed.successor_lt hj)] at ht
      exact ⟨j, hj, Option.some.inj ht ▸ hk⟩
    · rintro ⟨j, hj, hk⟩
      exact ⟨j, hj, _, before j (closed.successor_lt hj), hk⟩
  rw [sent]
  by_cases exit : i = FlowGraph.exit
  · have boundary : (Solver.cell a.problem s.cells i).arriving = .empty a.width := exit ▸ origin
    rw [boundary]
    simp [exit]
  · rw [and_iff_right exit]
    by_cases none : a.graph.successors i = []
    · have initial : (Solver.cell a.problem s.cells i).arriving = .empty a.width :=
        unfed i exit none
      rw [initial, none]
      simp
    · rw [← here.gathers]
      exact contains_gather exit none fits k

/-- The equations hand a bit back along a walk to where it starts. -/
theorem live_of_readsAhead (closed : a.graph.Closed) {limit : Nat} {s : Solver.Solution BitSet}
    (h : (a.run limit).result = .ok s) {k i : Nat} (hi : i < a.graph.size)
    (ahead : a.ReadsAhead k i) : ∃ t, s.before? i = some t ∧ t.contains k = true := by
  obtain ⟨left, last, walk, ⟨e, he, gen⟩, unwritten⟩ := ahead
  induction walk with
  | stay i =>
    obtain ⟨before, _, e', hb, _, he', members⟩ := live_equations closed h hi
    obtain rfl := Except.ok.inj (he ▸ he')
    exact ⟨before, hb, (members k).1.mpr (.inl gen)⟩
  | @go i j last left next _ ih =>
    obtain ⟨before, after, e', hb, _, he', members⟩ := live_equations closed h hi
    obtain ⟨ordinary, e'', he'', kill⟩ := unwritten i (by simp)
    obtain rfl := Except.ok.inj (he' ▸ he'')
    have live := ih (closed.successor_lt next) (fun m hm => unwritten m (by simp [hm])) he
    have out : after.contains k = true := (members k).2.mpr ⟨ordinary, j, next, live⟩
    exact ⟨before, hb, (members k).1.mpr (.inr ⟨out, kill⟩)⟩

/-- A bit of a solution has a walk behind it. -/
theorem readsAhead_of_live {limit : Nat} {s : Solver.Solution BitSet}
    (h : (a.run limit).result = .ok s) {k i : Nat} (hi : i < a.graph.size) {t : BitSet}
    (ht : s.before? i = some t) (live : t.contains k = true) : a.ReadsAhead k i := by
  rw [Solver.before?_of_solve h hi] at ht
  obtain rfl := Option.some.inj ht
  exact (a.kept_readsAhead.solve h i).2.2 k live

/-! ### Results -/

theorem run_of_liveVariables {limit : Nat} {r : LiveResult}
    (h : (a.liveVariables limit).result = .ok r) :
    (a.run limit).result = .ok r.solution ∧ r.locals = a.locals ∧ r.escaped = a.escaped := by
  unfold liveVariables at h
  dsimp only at h
  split at h
  · next solution solved =>
    obtain rfl := Except.ok.inj h
    exact ⟨solved, rfl, rfl⟩
  · cases h

/-- What setting up finds: the numbers of the variables, that the escaped ones are known, and whether
some point reads the alias of all arguments, which makes the parameters escape. -/
theorem prepare_ok {p : Program} {g : FlowGraph} {fs bs : ScopeId} {escaped : Escaped}
    {limits : Limits} (h : prepare p g fs bs escaped limits = .ok a) :
    ∃ locals read, locals? p fs bs limits = .ok locals ∧
      (∀ v ∈ escaped.vars, v < p.scopes.vars.size) ∧
      findsAlias ⟨p, g, fs, bs, locals, escaped, false⟩ = .ok read ∧
      a = ⟨p, g, fs, bs, locals, if read then escaped.insertAll
        (parameters ⟨p, g, fs, bs, locals, escaped, false⟩) else escaped, read⟩ := by
  obtain ⟨locals, found, h⟩ := bind_eq_ok.mp h
  split at h
  · cases h
  · next known =>
    obtain ⟨read, finds, h⟩ := bind_eq_ok.mp h
    refine ⟨locals, read, found, fun v hv => ?_, finds, ?_⟩
    · have none := Option.eq_none_iff_forall_ne_some.mpr known
      simpa using List.find?_eq_none.mp none v hv
    · cases read <;> exact (Except.ok.inj h).symm

/-- Setting up an analysis keeps the program and the graph. -/
theorem of_prepare {p : Program} {g : FlowGraph} {fs bs : ScopeId} {escaped : Escaped}
    {limits : Limits} (h : prepare p g fs bs escaped limits = .ok a) :
    a.program = p ∧ a.graph = g := by
  obtain ⟨_, _, _, _, _, rfl⟩ := prepare_ok h
  exact ⟨rfl, rfl⟩

/-- **Live means read ahead.** Whatever the program, the graph and the escaped variables, the
sets before a point hold exactly the variables that are read ahead of it, and the sets after
it hold what is live before one of its successors. -/
theorem liveIn_iff_readsAhead (p : Program) (g : FlowGraph) (closed : g.Closed) (fs bs : ScopeId)
    (escaped : Escaped) (limits : Limits) (a : Analysis)
    (ha : prepare p g fs bs escaped limits = .ok a) (limit : Nat) (r : LiveResult)
    (hr : (a.liveVariables limit).result = .ok r) (n : Nat) (hn : n < g.size) :
    ∃ liveIn liveOut, r.liveIn? n = some liveIn ∧ r.liveOut? n = some liveOut ∧ ∀ i,
      (liveIn.contains i = true ↔ ∃ left last, g.Walk n left last ∧
        (∃ e, a.effect last = .ok e ∧ e.gen.contains i = true) ∧
        ∀ m ∈ left, m ≠ FlowGraph.exit ∧ ∃ e, a.effect m = .ok e ∧ e.kill.contains i = false) ∧
      (liveOut.contains i = true ↔ n ≠ FlowGraph.exit ∧
        ∃ m ∈ g.successors n, ∃ s, r.liveIn? m = some s ∧ s.contains i = true) := by
  obtain ⟨_, rfl⟩ := of_prepare ha
  obtain ⟨solved, _, _⟩ := run_of_liveVariables hr
  obtain ⟨before, after, _, hb, hafter, _, members⟩ := live_equations closed solved hn
  refine ⟨before, after, hb, hafter, fun i => ⟨⟨fun live => ?_, fun ahead => ?_⟩, (members i).2⟩⟩
  · exact readsAhead_of_live solved hn hb live
  · obtain ⟨t, ht, live⟩ := live_of_readsAhead closed solved hn ahead
    obtain rfl := Option.some.inj (hb ▸ ht)
    exact live

/-- `while (i) i -= step;` -/
def countdown : Program where
  tree := ⟨#[{ kind := .name "i", parent := some 5 }, { kind := .name "i", parent := some 3 },
    { kind := .name "step", parent := some 3 },
    { kind := .assign .sub, children := [1, 2], parent := some 4 },
    { kind := .exprStmt, children := [3], parent := some 5 },
    { kind := .whileLoop, children := [0, 4] }]⟩
  scopes :=
    { scopes := #[{ kind := .function, root := 5, children := [1], vars := ⟨[("i", 0), ("step", 1)]⟩ },
        { kind := .body, root := 5, parent := some 0 }]
      vars := #[{ name := "i", scope := 0, node := 0, kind := .param },
        { name := "step", scope := 0, node := 0, kind := .param }] }
  normalized := true

def countdownGraph : FlowGraph where
  points := #[.implicitReturn, .node 5, .node 4]
  edges := [⟨1, .onFalse, 0⟩, ⟨2, .always, 1⟩, ⟨1, .onTrue, 2⟩]
  start := some 1

theorem liveIn_iff_readsAhead_countdown :
    ∃ a r, prepare countdown countdownGraph 0 1 {} {} = .ok a ∧
      (a.liveVariables 20).result = .ok r ∧ ∃ liveIn, r.liveIn? 1 = some liveIn ∧
        liveIn.contains 1 = true ∧ ∃ left last, countdownGraph.Walk 1 left last ∧
          (∃ e, a.effect last = .ok e ∧ e.gen.contains 1 = true) ∧
          ∀ m ∈ left, m ≠ FlowGraph.exit ∧ ∃ e, a.effect m = .ok e ∧ e.kill.contains 1 = false := by
  have prepared : prepare countdown countdownGraph 0 1 {} {} =
      .ok ⟨countdown, countdownGraph, 0, 1, ⟨[("i", 0), ("step", 1)]⟩, {}, false⟩ := rfl
  have solved : (liveVariables
      ⟨countdown, countdownGraph, 0, 1, ⟨[("i", 0), ("step", 1)]⟩, {}, false⟩ 20).result =
      .ok ⟨⟨.backward, #[⟨⟨2, #[0]⟩, ⟨2, #[0]⟩⟩, ⟨⟨2, #[3]⟩, ⟨2, #[3]⟩⟩, ⟨⟨2, #[3]⟩, ⟨2, #[3]⟩⟩], 4⟩,
        ⟨[("i", 0), ("step", 1)]⟩, {}⟩ := rfl
  obtain ⟨liveIn, _, here, _, members⟩ := liveIn_iff_readsAhead countdown countdownGraph (by decide)
    0 1 {} {} _ prepared 20 _ solved 1 (by decide)
  have live : liveIn.contains 1 = true := by
    obtain rfl := Option.some.inj here
    decide
  exact ⟨_, _, prepared, solved, liveIn, here, live, (members 1).1.mp live⟩

end Analysis
end Liveness
