import Liveness.Proofs.Live.Keeping

/-! More edges, more live variables.

A run of the solver depends on the order of the edges, on how often one is repeated and on
where the graph starts: they decide which points are visited when, and whether what arrives is
joined or just copied. Live sets do not show any of it, since they are a matter of walks. A walk
goes along an edge however often that is there, and no new edge takes a walk away. It does not
end a walk early either. An edge that leaves a point by an exception makes the writes of that
point uncertain, and so can only let more walks through. -/
namespace Liveness

namespace FlowGraph

/-- The first graph has the points of the second, and no edge that the second lacks. -/
structure Part (g g' : FlowGraph) : Prop where
  points : g.points = g'.points
  edges : ∀ e ∈ g.edges, e ∈ g'.edges

namespace Part
variable {g g' : FlowGraph} (part : g.Part g')
include part

theorem size_eq : g.size = g'.size := congrArg Array.size part.points

theorem node?_eq (i : Nat) : g.node? i = g'.node? i :=
  congrArg (fun points : Array Point => points[i]?.bind Point.node?) part.points

theorem closed (h : g'.Closed) : g.Closed := fun e he => part.size_eq ▸ h e (part.edges e he)

theorem successors {i j : Nat} (h : j ∈ g.successors i) : j ∈ g'.successors i := by
  obtain ⟨e, he, ends⟩ := mem_successors.mp h
  exact mem_successors.mpr ⟨e, part.edges e he, ends⟩

theorem throws {i : Nat} (h : g.throws i = true) : g'.throws i = true := by
  obtain ⟨e, he, exceptional⟩ := List.any_eq_true.mp h
  obtain ⟨he, source⟩ := List.mem_filter.mp he
  exact List.any_eq_true.mpr ⟨e, List.mem_filter.mpr ⟨part.edges e he, source⟩, exceptional⟩

theorem walk {i last : Nat} {left : List Nat} (h : g.Walk i left last) : g'.Walk i left last := by
  induction h with
  | stay i => exact .stay i
  | go next _ ih => exact .go (part.successors next) ih

end Part
end FlowGraph

namespace Analysis
variable {a : Analysis} {g : FlowGraph}

/-- The same function with another graph. -/
def on (a : Analysis) (g : FlowGraph) : Analysis := { a with graph := g }

/-! ### Setting up -/

/-- Whether the alias of all arguments is read is a matter of the points alone. -/
theorem findsAlias_on (points : a.graph.points = g.points) :
    (a.on g).findsAlias = a.findsAlias := by
  unfold findsAlias
  rw [show (a.on g).graph.points = a.graph.points from points.symm]
  rfl

/-- Setting up looks at the points of a graph and not at its edges. -/
theorem prepare_on {g g' : FlowGraph} (points : g.points = g'.points) (p : Program)
    (fs bs : ScopeId) (escaped : Escaped) (limits : Limits) :
    prepare p g' fs bs escaped limits = (prepare p g fs bs escaped limits).map (·.on g') := by
  unfold prepare
  cases locals? p fs bs limits with
  | error e => rfl
  | ok locals =>
    simp only [bind, Except.bind]
    split
    · rfl
    · let a : Analysis :=
        { program := p, graph := g, functionScope := fs, bodyScope := bs, locals, escaped }
      have finds : (a.on g').findsAlias = a.findsAlias := findsAlias_on points
      simp only [a, on] at finds
      rw [finds]
      split
      · rfl
      · split <;> rfl

/-! ### What a point does -/

/-- With more edges a point reads what it did, and writes no more for certain. -/
theorem effect_on (part : a.graph.Part g) {i : Nat} {e : Solver.GenKill} (h : a.effect i = .ok e) :
    ∃ e', (a.on g).effect i = .ok e' ∧ e'.gen = e.gen ∧ e'.kill.Included e.kill := by
  have same : (a.on g).graph.node? i = a.graph.node? i := (part.node?_eq i).symm
  unfold effect at h ⊢
  rw [same]
  split at h
  · next n _ =>
    obtain ⟨accesses, listed, rfl⟩ := map_eq_ok.mp h
    have milder := a.program.tree.milder_accesses n (part.throws (i := i))
    rw [listed] at milder
    cases few : a.program.tree.accesses n (g.throws i) with
    | error e =>
      rw [few] at milder
      cases milder
    | ok xs =>
      rw [few] at milder
      cases milder with
      | listed fewer =>
        exact ⟨_, map_eq_ok.mpr ⟨xs, few, rfl⟩, summary_fewer fewer⟩
  · obtain rfl := Except.ok.inj h
    exact ⟨_, rfl, rfl, fun _ hk => hk⟩

/-! ### Two runs -/

/-- What is live before a point is a set of the analysis's width, and so is what is live after
it. -/
theorem proper_of_run {limit : Nat} {s : Solver.Solution BitSet}
    (h : (a.run limit).result = .ok s) {i : Nat} (hi : i < a.graph.size) {before after : BitSet}
    (hb : s.before? i = some before) (ha : s.after? i = some after) :
    before.Proper a.width ∧ after.Proper a.width := by
  rw [Solver.before?_of_solve h hi] at hb
  rw [Solver.after?_of_solve h hi] at ha
  obtain rfl := Option.some.inj hb
  obtain rfl := Option.some.inj ha
  exact (a.kept_proper.solve h i).symm

/-- As far as one variable goes, a point of the second analysis reads what it does in the first, and
certainly writes nothing that it does not write there. -/
def Carries (a b : Analysis) (k : Nat) : Prop :=
  ∀ i e, a.effect i = .ok e → ∃ e', b.effect i = .ok e' ∧
    (e.gen.contains k = true → e'.gen.contains k = true) ∧
    (e'.kill.contains k = true → e.kill.contains k = true)

section Carries
variable {b : Analysis} {k : Nat} (part : a.graph.Part b.graph) (carries : a.Carries b k)
include part carries

/-- What is read ahead still is. -/
theorem ReadsAhead.carry {i : Nat} (h : a.ReadsAhead k i) : b.ReadsAhead k i := by
  obtain ⟨left, last, walk, ⟨e, he, gen⟩, unwritten⟩ := h
  refine ⟨left, last, part.walk walk, ?_, fun j hj => ?_⟩
  · obtain ⟨e', he', reads, _⟩ := carries last e he
    exact ⟨e', he', reads gen⟩
  · obtain ⟨ordinary, e, he, kill⟩ := unwritten j hj
    obtain ⟨e', he', _, writes⟩ := carries j e he
    refine ⟨ordinary, e', he', Bool.eq_false_iff.mpr fun hk => ?_⟩
    rw [writes hk] at kill
    cases kill

variable (closed : b.graph.Closed) {limit limit' : Nat} {s s' : Solver.Solution BitSet}
  (h : (a.run limit).result = .ok s) (h' : (b.run limit').result = .ok s')
include closed h h'

/-- What is live before a point still is. -/
theorem before_carry {i : Nat} (hi : i < a.graph.size) {t t' : BitSet} (ht : s.before? i = some t)
    (ht' : s'.before? i = some t') (live : t.contains k = true) : t'.contains k = true := by
  have ahead := (readsAhead_of_live h hi ht live).carry part carries
  obtain ⟨u, hu, live⟩ := live_of_readsAhead closed h' (part.size_eq ▸ hi) ahead
  obtain rfl := Option.some.inj (ht'.symm.trans hu)
  exact live

/-- What is live after a point still is. -/
theorem after_carry {i : Nat} (hi : i < a.graph.size) {t t' : BitSet} (ht : s.after? i = some t)
    (ht' : s'.after? i = some t') (live : t.contains k = true) : t'.contains k = true := by
  obtain ⟨_, _, _, _, after, _, members⟩ := live_equations (part.closed closed) h hi
  obtain ⟨_, _, _, _, after', _, members'⟩ := live_equations closed h' (part.size_eq ▸ hi)
  obtain rfl := Option.some.inj (ht.symm.trans after)
  obtain rfl := Option.some.inj (ht'.symm.trans after')
  obtain ⟨ordinary, j, next, u, hu, live⟩ := (members k).2.mp live
  have hj := (part.closed closed).successor_lt next
  have hu' := Solver.before?_of_solve h' (part.size_eq ▸ hj)
  exact (members' k).2.mpr ⟨ordinary, j, part.successors next, _, hu',
    before_carry part carries closed h h' hj hu hu' live⟩

end Carries

section
variable (part : a.graph.Part g) (closed : g.Closed) {limit limit' : Nat}
  {s s' : Solver.Solution BitSet} (h : (a.run limit).result = .ok s)
  (h' : ((a.on g).run limit').result = .ok s')
include part

theorem carries_on (k : Nat) : a.Carries (a.on g) k := by
  intro i e he
  obtain ⟨e', he', same, less⟩ := effect_on part he
  exact ⟨e', he', fun gen => same ▸ gen, less k⟩

include closed h h'

/-- With more edges more is live before a point. -/
theorem before_on {i : Nat} {t : BitSet} (hi : i < a.graph.size) (ht : s.before? i = some t) :
    ∃ t', s'.before? i = some t' ∧ t.Included t' := by
  have ht' := Solver.before?_of_solve h' (part.size_eq ▸ hi)
  exact ⟨_, ht', fun k => before_carry part (carries_on part k) closed h h' hi ht ht'⟩

/-- With more edges more is live after a point. -/
theorem after_on {i : Nat} {t : BitSet} (hi : i < a.graph.size) (ht : s.after? i = some t) :
    ∃ t', s'.after? i = some t' ∧ t.Included t' := by
  have ht' := Solver.after?_of_solve h' (part.size_eq ▸ hi)
  exact ⟨_, ht', fun k => after_carry part (carries_on part k) closed h h' hi ht ht'⟩

end

/-- **Live sets grow with the edges, and depend on nothing else about them.** If a graph has the
points of another and all its edges, setting up has the same outcome for both, the variables
have the same numbers, and every set of the one is part of that of the other. So graphs with the
same edges have the same live sets, in whatever order the edges are listed, however often, and
wherever the graphs start. -/
theorem live_mono (p : Program) (g₁ g₂ : FlowGraph) (part : g₁.Part g₂) (closed : g₂.Closed)
    (fs bs : ScopeId) (escaped : Escaped) (limits : Limits) :
    prepare p g₂ fs bs escaped limits = (prepare p g₁ fs bs escaped limits).map (·.on g₂) ∧
    ∀ a₁ a₂, prepare p g₁ fs bs escaped limits = .ok a₁ →
      prepare p g₂ fs bs escaped limits = .ok a₂ →
    ∀ limit₁ limit₂ r₁ r₂, (a₁.liveVariables limit₁).result = .ok r₁ →
      (a₂.liveVariables limit₂).result = .ok r₂ →
      r₁.locals = r₂.locals ∧ r₁.escaped = r₂.escaped ∧
      ∀ n < g₁.size, ∃ in₁ out₁ in₂ out₂,
        r₁.liveIn? n = some in₁ ∧ r₁.liveOut? n = some out₁ ∧
        r₂.liveIn? n = some in₂ ∧ r₂.liveOut? n = some out₂ ∧
        in₁.Included in₂ ∧ out₁.Included out₂ ∧ (g₂.Part g₁ → in₁ = in₂ ∧ out₁ = out₂) := by
  have prepared := prepare_on part.points p fs bs escaped limits
  refine ⟨prepared, fun a₁ a₂ ha₁ ha₂ limit₁ limit₂ r₁ r₂ hr₁ hr₂ => ?_⟩
  obtain ⟨_, rfl⟩ := of_prepare ha₁
  obtain rfl : a₁.on g₂ = a₂ := by
    rw [ha₁, ha₂] at prepared
    exact (Except.ok.inj prepared).symm
  obtain ⟨solved₁, locals₁, escaped₁⟩ := run_of_liveVariables hr₁
  obtain ⟨solved₂, locals₂, escaped₂⟩ := run_of_liveVariables hr₂
  refine ⟨locals₁.trans locals₂.symm, escaped₁.trans escaped₂.symm, fun n hn => ?_⟩
  have hn₂ : n < (a₁.on g₂).graph.size := part.size_eq ▸ hn
  have in₁ := Solver.before?_of_solve solved₁ hn
  have out₁ := Solver.after?_of_solve solved₁ hn
  obtain ⟨_, in₂, more⟩ := before_on part closed solved₁ solved₂ hn in₁
  obtain ⟨_, out₂, more'⟩ := after_on part closed solved₁ solved₂ hn out₁
  refine ⟨_, _, _, _, in₁, out₁, in₂, out₂, more, more', fun back => ?_⟩
  -- The first graph has the edges of the second, so the second run can be taken for the first.
  obtain ⟨_, same, less⟩ :=
    before_on (a := a₁.on g₂) back (part.closed closed) solved₂ solved₁ hn₂ in₂
  obtain rfl := Option.some.inj (in₁ ▸ same)
  obtain ⟨_, same, less'⟩ :=
    after_on (a := a₁.on g₂) back (part.closed closed) solved₂ solved₁ hn₂ out₂
  obtain rfl := Option.some.inj (out₁ ▸ same)
  obtain ⟨proper₁, proper₁'⟩ := proper_of_run solved₁ hn in₁ out₁
  obtain ⟨proper₂, proper₂'⟩ := proper_of_run solved₂ hn₂ in₂ out₂
  exact ⟨proper₁.ext proper₂ fun k => Bool.eq_iff_iff.mpr ⟨more k, less k⟩,
    proper₁'.ext proper₂' fun k => Bool.eq_iff_iff.mpr ⟨more' k, less' k⟩⟩

/-- `x = y; x;` -/
def overwrite : Program where
  tree := ⟨#[{ kind := .name "x", parent := some 2 }, { kind := .name "y", parent := some 2 },
    { kind := .assign .assign, children := [0, 1], parent := some 3 },
    { kind := .exprStmt, children := [2], parent := some 6 },
    { kind := .name "x", parent := some 5 }, { kind := .exprStmt, children := [4], parent := some 6 },
    { kind := .block, children := [3, 5] }]⟩
  scopes :=
    { scopes := #[{ kind := .function, root := 6, children := [1], vars := ⟨[("x", 0), ("y", 1)]⟩ },
        { kind := .body, root := 6, parent := some 0 }]
      vars := #[{ name := "x", scope := 0, node := 0, kind := .param },
        { name := "y", scope := 0, node := 1, kind := .param }] }
  normalized := true

/-- The two statements of `overwrite` and the return, joined by some edges. -/
def overwriteGraph (edges : List Edge) (start : Nat) : FlowGraph where
  points := #[.implicitReturn, .node 3, .node 5]
  edges
  start := some start

/-- The result for such a graph, given the set before the first statement. -/
def overwriteResult (before : UInt64) : LiveResult :=
  ⟨⟨.backward, #[⟨⟨2, #[0]⟩, ⟨2, #[0]⟩⟩, ⟨⟨2, #[1]⟩, ⟨2, #[before]⟩⟩, ⟨⟨2, #[0]⟩, ⟨2, #[1]⟩⟩], 3⟩,
    ⟨[("x", 0), ("y", 1)]⟩, {}⟩

/-- An exception of the first statement lets the old `x` through. Repeating an edge, listing the
edges in another order and starting at the second statement changes nothing. -/
theorem live_mono_overwrite :
    ∃ a₁ a₂ a₃ r₁ r₂ r₃,
      prepare overwrite (overwriteGraph [⟨2, .always, 0⟩, ⟨1, .always, 2⟩] 1) 0 1 {} {} = .ok a₁ ∧
      prepare overwrite (overwriteGraph [⟨1, .onException, 2⟩, ⟨2, .always, 0⟩, ⟨1, .always, 2⟩] 1)
        0 1 {} {} = .ok a₂ ∧
      prepare overwrite (overwriteGraph [⟨1, .always, 2⟩, ⟨2, .always, 0⟩, ⟨1, .always, 2⟩] 2)
        0 1 {} {} = .ok a₃ ∧
      (a₁.liveVariables 20).result = .ok r₁ ∧ (a₂.liveVariables 20).result = .ok r₂ ∧
      (a₃.liveVariables 20).result = .ok r₃ ∧
      ∃ in₁ in₂ in₃, r₁.liveIn? 1 = some in₁ ∧ r₂.liveIn? 1 = some in₂ ∧ r₃.liveIn? 1 = some in₃ ∧
        in₁.Included in₂ ∧ in₁ = in₃ ∧ in₁.contains 0 = false ∧ in₂.contains 0 = true := by
  have prepared (edges : List Edge) (start : Nat) :
      prepare overwrite (overwriteGraph edges start) 0 1 {} {} =
        .ok ⟨overwrite, overwriteGraph edges start, 0, 1, ⟨[("x", 0), ("y", 1)]⟩, {}, false⟩ := rfl
  have solved₁ : (liveVariables ⟨overwrite, overwriteGraph [⟨2, .always, 0⟩, ⟨1, .always, 2⟩] 1,
      0, 1, ⟨[("x", 0), ("y", 1)]⟩, {}, false⟩ 20).result = .ok (overwriteResult 2) := rfl
  have solved₂ : (liveVariables ⟨overwrite,
      overwriteGraph [⟨1, .onException, 2⟩, ⟨2, .always, 0⟩, ⟨1, .always, 2⟩] 1,
      0, 1, ⟨[("x", 0), ("y", 1)]⟩, {}, false⟩ 20).result = .ok (overwriteResult 3) := rfl
  have solved₃ : (liveVariables ⟨overwrite,
      overwriteGraph [⟨1, .always, 2⟩, ⟨2, .always, 0⟩, ⟨1, .always, 2⟩] 2,
      0, 1, ⟨[("x", 0), ("y", 1)]⟩, {}, false⟩ 20).result = .ok (overwriteResult 2) := rfl
  have part {edges edges' : List Edge} (sub : ∀ e ∈ edges, e ∈ edges') (start start' : Nat) :
      (overwriteGraph edges start).Part (overwriteGraph edges' start') := ⟨rfl, sub⟩
  obtain ⟨_, _, sets⟩ := (live_mono overwrite _ _ (part (by decide) 1 1) (by decide) 0 1 {} {}).2
    _ _ (prepared _ 1) (prepared _ 1) 20 20 _ _ solved₁ solved₂
  obtain ⟨_, _, sets'⟩ := (live_mono overwrite _ _ (part (by decide) 1 2) (by decide) 0 1 {} {}).2
    _ _ (prepared _ 1) (prepared _ 2) 20 20 _ _ solved₁ solved₃
  obtain ⟨in₁, _, in₂, _, here₁, _, here₂, _, more, _⟩ := sets 1 (by decide)
  obtain ⟨_, _, in₃, _, here, _, here₃, _, _, _, same⟩ := sets' 1 (by decide)
  obtain rfl := Option.some.inj (here₁ ▸ here)
  have dead : in₁.contains 0 = false := by
    obtain rfl := Option.some.inj here₁
    decide
  have live : in₂.contains 0 = true := by
    obtain rfl := Option.some.inj here₂
    decide
  exact ⟨_, _, _, _, _, _, prepared _ 1, prepared _ 1, prepared _ 2, solved₁, solved₂, solved₃,
    in₁, in₂, in₃, here₁, here₂, here₃, more, (same (part (by decide) 2 1)).1, dead, live⟩

end Analysis
end Liveness
