import Liveness.Proofs.Live.Path
import Liveness.Proofs.Solver.Bound

/-! Live variables converge.

A set of live variables only ever gains members while a run goes on, and it has room for as
many as the function has variables. So the number of variables is the height of the climb, and
a limit that leaves room for one visit to each point and, for each edge, one more for each
variable is never reached. -/
namespace Liveness

namespace BitSet

/-- One set is part of another. -/
def Included (s t : BitSet) : Prop := ∀ k, s.contains k = true → t.contains k = true

/-- The members below the width of a set. -/
def members (width : Nat) (s : BitSet) : Finset Nat :=
  (Finset.range width).filter fun k => s.contains k = true

theorem card_members_le (width : Nat) (s : BitSet) : (s.members width).card ≤ width := by
  have := Finset.card_filter_le (Finset.range width) fun k => s.contains k = true
  rwa [Finset.card_range] at this

/-- A larger set has more members. -/
theorem card_members_lt {width : Nat} {s t : BitSet} (hs : s.Proper width) (ht : t.Proper width)
    (part : s.Included t) (different : s ≠ t) : (s.members width).card < (t.members width).card := by
  apply Finset.card_lt_card
  refine Finset.ssubset_iff_subset_ne.mpr ⟨?_, fun same => different (hs.ext ht fun k => ?_)⟩
  · intro k hk
    obtain ⟨below, member⟩ := Finset.mem_filter.mp hk
    exact Finset.mem_filter.mpr ⟨below, part k member⟩
  · rw [Bool.eq_iff_iff]
    refine ⟨part k, fun member => ?_⟩
    have below : k < width := ht.width_eq ▸ (lt_of_contains member).1
    have listed : k ∈ s.members width := by
      rw [same]
      exact Finset.mem_filter.mpr ⟨Finset.mem_range.mpr below, member⟩
    exact (Finset.mem_filter.mp listed).2

end BitSet

namespace Analysis
variable {a : Analysis}

theorem proper_setOf {members : List Nat} (below : ∀ i ∈ members, i < a.width) :
    (a.setOf members).Proper a.width :=
  (BitSet.proper_empty a.width).foldl_insert below

theorem proper_gen {i : Nat} {e : Solver.GenKill} (h : a.effect i = .ok e) :
    e.gen.Proper a.width := by
  obtain ⟨accesses, rfl⟩ := effect_eq_summary h
  apply proper_setOf
  intro k hk
  obtain ⟨x, _, hx⟩ := List.mem_filterMap.mp hk
  exact readBy?_lt hx

theorem proper_kill {i : Nat} {e : Solver.GenKill} (h : a.effect i = .ok e) :
    e.kill.Proper a.width := by
  obtain ⟨accesses, rfl⟩ := effect_eq_summary h
  apply proper_setOf
  intro k hk
  obtain ⟨x, _, hx⟩ := List.mem_filterMap.mp hk
  exact writtenBy?_lt hx

theorem proper_join {sets : List BitSet} (proper : ∀ s ∈ sets, s.Proper a.width) :
    (a.problem.join sets).Proper a.width :=
  (BitSet.proper_empty a.width).foldl_union proper

section Effect
variable {i : Nat} {e : Solver.GenKill} {s t : BitSet} (he : a.effect i = .ok e)
include he

theorem proper_apply (hs : s.Proper a.width) : (e.apply s).Proper a.width :=
  (hs.diff e.kill).union (proper_gen he)

/-- A point keeps the order of what arrives. -/
theorem apply_mono (hs : s.Proper a.width) (ht : t.Proper a.width) (part : s.Included t) :
    (e.apply s).Included (e.apply t) := by
  intro k
  rw [contains_apply he hs.toFits, contains_apply he ht.toFits, Bool.or_eq_true, Bool.or_eq_true,
    Bool.and_eq_true, Bool.and_eq_true]
  exact Or.imp_left (And.imp_left (part k))

end Effect

/-- Every set that occurs in a run is one of the analysis's width with nothing beyond it. -/
theorem kept_proper (a : Analysis) :
    Solver.Kept a.problem a.graph (fun _ s => s.Proper a.width) (fun _ s => s.Proper a.width) where
  boundary := BitSet.proper_empty a.width
  initial _ := ⟨BitSet.proper_empty a.width, BitSet.proper_empty a.width⟩
  copied _ _ _ _ _ _ h := h
  joined i _ value _ _ h := by
    refine proper_join fun s hs => ?_
    obtain ⟨j, hj, rfl⟩ := List.mem_map.mp hs
    exact h j hj
  flows i _ s t h ht := by
    obtain ⟨e, he, rfl⟩ := map_eq_ok.mp ht
    exact proper_apply he h

/-- The live sets climb, by at most one member for each variable. -/
theorem climbs (known : ∀ i < a.graph.size, ∃ e, a.effect i = .ok e) :
    Solver.Climbs a.problem a.graph (BitSet.Proper · a.width) BitSet.Included
      (fun s => (s.members a.width).card) a.width where
  occurs := a.kept_proper
  refl _ _ h := h
  trans _ _ _ h h' k hk := h' k (h k hk)
  lowest s _ k hk := by
    rw [show a.problem.initial.contains k = false from BitSet.contains_empty a.width k] at hk
    cases hk
  joins js value value' _ proper higher := by
    have fits : ∀ value : Nat → BitSet, (∀ j, (value j).Proper a.width) →
        ∀ s ∈ js.map value, s.Fits a.width := by
      intro value proper s hs
      obtain ⟨j, _, rfl⟩ := List.mem_map.mp hs
      exact (proper j).toFits
    intro k hk
    rw [contains_join (fits value fun j => (proper j).1)] at hk
    rw [contains_join (fits value' fun j => (proper j).2)]
    obtain ⟨s, hs, member⟩ := hk
    obtain ⟨j, hj, rfl⟩ := List.mem_map.mp hs
    exact ⟨value' j, List.mem_map_of_mem hj, higher j hj k member⟩
  total i hi s _ := by
    obtain ⟨e, he⟩ := known i hi
    exact ⟨e.apply s, flow_of_effect he s⟩
  flows i _ s s' t t' hs hs' part ht ht' := by
    obtain ⟨e, he, rfl⟩ := map_eq_ok.mp ht
    rw [flow_of_effect he] at ht'
    obtain rfl := Except.ok.inj ht'
    exact apply_mono he hs hs' part
  rank_lt _ _ hs ht part different := BitSet.card_members_lt hs ht part different
  rank_le s _ := s.card_members_le a.width

/-- The live sets are found within one visit to each point and, for each edge, one more for each
variable. -/
theorem exists_liveVariables {p : Program} {g : FlowGraph} {fs bs : ScopeId} {escaped : Escaped}
    {limits : Limits} (prepared : prepare p g fs bs escaped limits = .ok a) (closed : g.Closed)
    (entry : g.entry < g.size) (known : ∀ i < g.size, ∃ e, a.effect i = .ok e) {limit : Nat}
    (room : g.size + a.width * g.edges.length ≤ limit) :
    ∃ r, (a.liveVariables limit).result = .ok r := by
  obtain ⟨_, rfl⟩ := of_prepare prepared
  obtain ⟨s, solved⟩ := (climbs known).exists_solution closed entry room
  refine ⟨⟨s, a.locals, a.escaped⟩, ?_⟩
  rw [liveVariables, run, solved]

end Analysis

namespace Solver

/-- **Convergence is bounded by the graph and the height of the lattice.** A solution of a
lawful problem takes at least one visit for each point and at most as many more as the height
for each edge, and with room for that many there is one. For live variables the height is the
number of variables. -/
theorem solve_converges :
    (∀ {L : Type u} [PartialOrder L] [BEq L] [LawfulBEq L] (p : Problem L) (g : FlowGraph),
      g.Closed → g.entry < g.size → p.Lawful g → ∀ height : Nat,
      (∀ c : LTSeries L, c.head = p.initial → c.length ≤ height) →
      (∀ limit s, (solve p g limit).result = .ok s →
        g.size ≤ s.steps ∧ s.steps ≤ g.size + height * g.edges.length) ∧
      ∀ limit, g.size + height * g.edges.length ≤ limit →
        ∃ s, (solve p g limit).result = .ok s) ∧
    ∀ (p : Program) (g : FlowGraph) (fs bs : ScopeId) (escaped : Escaped) (limits : Limits)
      (a : Analysis), Analysis.prepare p g fs bs escaped limits = .ok a →
      g.Closed → g.entry < g.size → (∀ i < g.size, ∃ e, a.effect i = .ok e) →
      ∀ limit, g.size + a.width * g.edges.length ≤ limit →
        ∃ r, (a.liveVariables limit).result = .ok r := by
  constructor
  · intro L _ _ _ p g closed entry lawful height chains
    exact converges_of_lawful closed entry lawful chains
  · intro p g fs bs escaped limits a prepared closed entry known limit room
    exact Analysis.exists_liveVariables prepared closed entry known room

/-- Which points the entry reaches: the smallest lattice there is. -/
def reaching : Problem Bool where
  direction := .forward
  boundary := true
  initial := false
  join xs := xs.any id
  flow _ x := .ok x

theorem reaching_lawful (g : FlowGraph) : reaching.Lawful g where
  bottom := Bool.false_le
  lub xs _ := by
    rw [isLUB_iff_le_iff]
    intro b
    show xs.any id ≤ b ↔ ∀ x ∈ xs, x ≤ b
    cases b <;> simp [Bool.le_iff_imp]
  total _ _ x := ⟨x, rfl⟩
  monotone _ _ x x' y y' hx hy hy' := by
    obtain rfl := Except.ok.inj hy
    obtain rfl := Except.ok.inj hy'
    exact hx

theorem solve_converges_knot :
    (∃ s, (solve reaching knot 12).result = .ok s ∧ 5 ≤ s.steps ∧ s.steps ≤ 12) ∧
      ∃ a r, Analysis.prepare Analysis.countdown Analysis.countdownGraph 0 1 {} {} = .ok a ∧
        (a.liveVariables 9).result = .ok r := by
  constructor
  · have chains : ∀ c : LTSeries Bool, c.head = reaching.initial → c.length ≤ 1 :=
      fun c _ => Nat.le_of_lt_succ c.length_lt_card
    obtain ⟨bounded, solved⟩ := solve_converges.1 reaching knot (by decide) (by decide)
      (reaching_lawful knot) 1 chains
    obtain ⟨s, hs⟩ := solved 12 (by decide)
    exact ⟨s, hs, bounded 12 s hs⟩
  · have prepared : Analysis.prepare Analysis.countdown Analysis.countdownGraph 0 1 {} {} =
        .ok ⟨Analysis.countdown, Analysis.countdownGraph, 0, 1, ⟨[("i", 0), ("step", 1)]⟩, {},
          false⟩ := rfl
    have known : ∀ i < 3, ∃ e, Analysis.effect ⟨Analysis.countdown, Analysis.countdownGraph, 0, 1,
        ⟨[("i", 0), ("step", 1)]⟩, {}, false⟩ i = .ok e := by
      intro i hi
      have : i = 0 ∨ i = 1 ∨ i = 2 := by omega
      rcases this with rfl | rfl | rfl <;> exact ⟨_, rfl⟩
    obtain ⟨r, hr⟩ := solve_converges.{0}.2 _ _ 0 1 {} {} _ prepared (by decide) (by decide) known
      9 (by decide)
    exact ⟨_, r, prepared, hr⟩

end Solver
end Liveness
