import Liveness.Proofs.BitSet.Denotation
import Liveness.Proofs.Graph.Construction
import Liveness.Proofs.Live.Bound

/-! Live variables as a lattice problem.

A solver may expect of a problem that joining is the least upper bound of an order with a least
value, and that flow is monotone. For live variables the order is inclusion, joining is union,
and what a point does is to take some members away and to add others, whatever arrives. Sets of
the right width are known by their members, so each law is a fact about single members: two
joins are equal because the same numbers are in some of the joined sets (`join_congr`), and a
point commutes with joining because it treats every member on its own (`apply_join`). -/
namespace Liveness.Analysis
variable {a : Analysis} {xs ys : List BitSet}

/-! ### Joining -/

theorem contains_join_of_proper (proper : ∀ x ∈ xs, x.Proper a.width) (k : Nat) :
    (a.problem.join xs).contains k = true ↔ ∃ x ∈ xs, x.contains k = true :=
  contains_join (fun x hx => (proper x hx).toFits) k

/-- A set with the members of the joined ones is their join. -/
theorem join_eq {s : BitSet} (proper : ∀ x ∈ xs, x.Proper a.width) (hs : s.Proper a.width)
    (same : ∀ k, (∃ x ∈ xs, x.contains k = true) ↔ s.contains k = true) :
    a.problem.join xs = s := by
  refine (proper_join proper).ext hs fun k => ?_
  rw [Bool.eq_iff_iff, contains_join_of_proper proper, same]

theorem join_congr (proper : ∀ x ∈ xs, x.Proper a.width) (same : ∀ x, x ∈ xs ↔ x ∈ ys) :
    a.problem.join xs = a.problem.join ys := by
  have proper' : ∀ x ∈ ys, x.Proper a.width := fun x hx => proper x ((same x).mpr hx)
  refine join_eq proper (proper_join proper') fun k => ?_
  simp only [contains_join_of_proper proper', same]

theorem join_append (hx : ∀ x ∈ xs, x.Proper a.width) (hy : ∀ y ∈ ys, y.Proper a.width) :
    a.problem.join (xs ++ ys) = a.problem.join [a.problem.join xs, a.problem.join ys] := by
  have parts : ∀ s ∈ [a.problem.join xs, a.problem.join ys], s.Proper a.width := by
    simp [proper_join hx, proper_join hy]
  refine join_eq (by simpa [or_imp, forall_and] using ⟨hx, hy⟩) (proper_join parts) fun k => ?_
  simp [contains_join_of_proper parts, contains_join_of_proper hx, contains_join_of_proper hy,
    or_and_right, exists_or]

/-! ### Flow -/

/-- What a point does to sets that are joined it does to each of them. -/
theorem apply_join {i : Nat} {e : Solver.GenKill} (he : a.effect i = .ok e) (some : xs ≠ [])
    (proper : ∀ x ∈ xs, x.Proper a.width) :
    e.apply (a.problem.join xs) = a.problem.join (xs.map e.apply) := by
  have applied : ∀ y ∈ xs.map e.apply, y.Proper a.width := by
    intro y hy
    obtain ⟨x, hx, rfl⟩ := List.mem_map.mp hy
    exact proper_apply he (proper x hx)
  have joined := proper_join proper
  symm
  refine join_eq applied (proper_apply he joined) fun k => ?_
  rw [contains_apply he joined.toFits, Bool.or_eq_true, Bool.and_eq_true,
    contains_join_of_proper proper]
  constructor
  · rintro ⟨y, hy, member⟩
    obtain ⟨x, hx, rfl⟩ := List.mem_map.mp hy
    rw [contains_apply he (proper x hx).toFits, Bool.or_eq_true, Bool.and_eq_true] at member
    exact member.imp_left fun kept => ⟨⟨x, hx, kept.1⟩, kept.2⟩
  · -- A member that is added needs one set to be added to.
    have from_one : ∀ x ∈ xs, (x.contains k && !e.kill.contains k || e.gen.contains k) = true →
        ∃ y ∈ xs.map e.apply, y.contains k = true := by
      intro x hx member
      exact ⟨e.apply x, List.mem_map_of_mem hx, by rwa [contains_apply he (proper x hx).toFits]⟩
    rintro (⟨⟨x, hx, member⟩, kept⟩ | gen)
    · exact from_one x hx (by simp [member, kept])
    · obtain ⟨x, hx⟩ := List.exists_mem_of_ne_nil xs some
      exact from_one x hx (by simp [gen])

/-- Nothing happens at the implicit return. -/
theorem effect_exit (built : a.graph.Built) :
    a.effect FlowGraph.exit = .ok (a.summary []) := by
  obtain ⟨cs, run⟩ := built.exists_changes
  have first : a.graph.point? FlowGraph.exit = some .implicitReturn :=
    ((FlowGraph.records_of_changes run).point?_eq_implicitReturn _).mpr rfl
  have none : a.graph.node? FlowGraph.exit = none := by
    rw [FlowGraph.node?, first]
    rfl
  rw [effect, none]

theorem flow_exit (built : a.graph.Built) {s : BitSet} (hs : s.Proper a.width) :
    a.problem.flow FlowGraph.exit s = .ok s := by
  have he := effect_exit built
  rw [flow_of_effect he]
  congr 1
  refine (proper_apply he hs).ext hs fun k => ?_
  have gen : ¬ (a.summary []).gen.contains k = true := by simp [contains_gen]
  have kill : ¬ (a.summary []).kill.contains k = true := by simp [contains_kill]
  rw [contains_apply he hs.toFits, Bool.eq_false_iff.mpr gen, Bool.eq_false_iff.mpr kill]
  simp

/-! ### Results -/

/-- Between sets of one width, the test for parts is inclusion. -/
theorem isSubset_iff_included {s t : BitSet} (hs : s.Proper a.width) (ht : t.Proper a.width) :
    s.isSubset t = true ↔ s.Included t := by
  have same : s.width = t.width := hs.width_eq.trans ht.width_eq.symm
  exact hs.isSubset_iff_included ht (same ▸ t.width_le_capacity)

/-- **Live variables are a lattice problem.** Joining sets of live variables is uniting them, so
neither their order nor repetitions nor groups matter; the empty set is below every other. A
point where flow succeeds for one set has a flow for all: what arrives without what the point
writes, with what it reads. That distributes over joining and is monotone, and at the implicit
return nothing happens. All sets keep the width of the analysis. -/
theorem lattice_contract (p : Program) (g : FlowGraph) (built : g.Built) (fs bs : ScopeId)
    (escaped : Escaped) (limits : Limits) (a : Analysis)
    (ha : prepare p g fs bs escaped limits = .ok a) :
    (∀ xs, (∀ x ∈ xs, x.Proper a.width) →
      (a.problem.join xs).Proper a.width ∧
      (∀ k, (a.problem.join xs).contains k = true ↔ ∃ x ∈ xs, x.contains k = true) ∧
      (∀ ys, (∀ x, x ∈ xs ↔ x ∈ ys) → a.problem.join xs = a.problem.join ys) ∧
      ∀ ys, (∀ y ∈ ys, y.Proper a.width) →
        a.problem.join (xs ++ ys) = a.problem.join [a.problem.join xs, a.problem.join ys]) ∧
    (∀ x, x.Proper a.width → a.problem.join [x] = x ∧ (BitSet.empty a.width).isSubset x = true) ∧
    (∀ x y : BitSet, x.Proper a.width → y.Proper a.width →
      (x.isSubset y = true ↔ x.Included y)) ∧
    (∀ i s₀ t₀, a.problem.flow i s₀ = .ok t₀ → ∃ e f, a.effect i = .ok e ∧
      (∀ s, a.problem.flow i s = .ok (f s)) ∧
      (∀ s, s.Proper a.width → (f s).Proper a.width ∧
        ∀ k, (f s).contains k = (s.contains k && !e.kill.contains k || e.gen.contains k)) ∧
      (∀ xs, xs ≠ [] → (∀ x ∈ xs, x.Proper a.width) →
        f (a.problem.join xs) = a.problem.join (xs.map f)) ∧
      ∀ s t, s.Proper a.width → t.Proper a.width → s.isSubset t = true →
        (f s).isSubset (f t) = true) ∧
    ∀ s, s.Proper a.width → a.problem.flow FlowGraph.exit s = .ok s := by
  obtain ⟨_, rfl⟩ := of_prepare ha
  refine ⟨fun xs proper => ⟨proper_join proper, contains_join_of_proper proper,
    fun ys => join_congr proper, fun ys => join_append proper⟩, fun x hx => ⟨?_, ?_⟩,
    fun x y => isSubset_iff_included, fun i s₀ t₀ flow => ?_, fun s => flow_exit built⟩
  · exact join_eq (by simpa using hx) hx (by simp)
  · rw [isSubset_iff_included (BitSet.proper_empty a.width) hx]
    intro k member
    rw [BitSet.contains_empty] at member
    cases member
  · obtain ⟨e, he, _⟩ := map_eq_ok.mp flow
    refine ⟨e, e.apply, he, flow_of_effect he, fun s hs => ⟨proper_apply he hs,
      contains_apply he hs.toFits⟩, fun xs => apply_join he, fun s t hs ht part => ?_⟩
    rw [isSubset_iff_included hs ht] at part
    rw [isSubset_iff_included (proper_apply he hs) (proper_apply he ht)]
    exact apply_mono he hs ht part

theorem lattice_contract_countdown :
    ∃ a, prepare countdown countdownGraph 0 1 {} {} = .ok a ∧ a.width = 2 ∧
      a.problem.flow 2 (.empty 2) = .ok ⟨2, #[3]⟩ ∧
      a.problem.join [⟨2, #[1]⟩, ⟨2, #[2]⟩, ⟨2, #[1]⟩] = a.problem.join [⟨2, #[2]⟩, ⟨2, #[1]⟩] ∧
      ∃ t, a.problem.flow 2 ⟨2, #[1]⟩ = .ok t ∧ t.Proper 2 := by
  have loop : FlowGraph.connect? { points := countdownGraph.points, start := some 1 } 1 .onTrue 2 =
      some (0, { countdownGraph with edges := [⟨1, .onTrue, 2⟩] }) := rfl
  have back : FlowGraph.connect? { countdownGraph with edges := [⟨1, .onTrue, 2⟩] } 2 .always 1 =
      some (1, { countdownGraph with edges := [⟨2, .always, 1⟩, ⟨1, .onTrue, 2⟩] }) := rfl
  have out : FlowGraph.connect?
      { countdownGraph with edges := [⟨2, .always, 1⟩, ⟨1, .onTrue, 2⟩] } 1 .onFalse 0 =
      some (2, countdownGraph) := rfl
  have built : countdownGraph.Built :=
    ((((FlowGraph.Built.new.add 5).add 4).connect loop).connect back).connect out
  obtain ⟨a, prepared, width, flow⟩ : ∃ a, prepare countdown countdownGraph 0 1 {} {} = .ok a ∧
      a.width = 2 ∧ a.problem.flow 2 (.empty 2) = .ok ⟨2, #[3]⟩ := ⟨_, rfl, rfl, rfl⟩
  obtain ⟨joins, _, _, flows, _⟩ := lattice_contract _ _ built 0 1 {} {} a prepared
  rw [width] at joins flows
  have first : BitSet.Proper ⟨2, #[1]⟩ 2 := (BitSet.proper_empty 2).insert (show 0 < 2 by decide)
  have second : BitSet.Proper ⟨2, #[2]⟩ 2 := (BitSet.proper_empty 2).insert (show 1 < 2 by decide)
  refine ⟨a, prepared, width, flow, ?_, ?_⟩
  · have proper : ∀ x ∈ [(⟨2, #[1]⟩ : BitSet), ⟨2, #[2]⟩, ⟨2, #[1]⟩], x.Proper 2 := by
      simp [first, second]
    refine (joins _ proper).2.2.1 _ fun x => ?_
    simp only [List.mem_cons, List.not_mem_nil, or_false]
    tauto
  · obtain ⟨_, f, _, total, kept, _⟩ := flows 2 _ _ flow
    exact ⟨f ⟨2, #[1]⟩, total _, (kept _ first).1⟩

end Liveness.Analysis
