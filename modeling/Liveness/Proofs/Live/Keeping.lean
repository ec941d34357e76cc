import Liveness.Proofs.Live.Bound
import Liveness.Proofs.Live.Conditional
import Liveness.Proofs.Live.Origin

/-! Points that lose nothing.

What is live after a point is live before it if the point reads whatever it certainly writes, and
only then (`keeps_iff`). A point that control can leave by an exception is of that kind, whatever
its node, since nothing but the slot of an iteration is certainly written there. So is an
iteration that fills a name. An iteration with any other target is listed as if the target were
evaluated whenever control passes, though the iteration may be over: it loses each variable that
the target certainly assigns and does not read (`iteration_keeps_iff`). -/
namespace Liveness

/-- If each member that is removed is also added, no set loses a member, of whatever width. -/
theorem Solver.GenKill.included_apply {e : GenKill} {width : Nat} (kill : e.kill.Proper width)
    (less : e.kill.Included e.gen) (s : BitSet) : s.Included (e.apply s) := by
  intro k hk
  have inside : k / BitSet.wordBits < s.words.size := by
    have := (BitSet.lt_of_contains hk).2
    simp only [BitSet.wordBits] at this ⊢
    omega
  have size : (s.diff e.kill).words.size = s.words.size := by simp [BitSet.diff]
  rw [BitSet.contains_eq, Bool.and_eq_true] at hk ⊢
  refine ⟨hk.1, ?_⟩
  rw [apply, BitSet.word_union, if_pos (size ▸ inside), BitSet.word_diff, if_pos inside,
    BitSet.bit_or, BitSet.bit_and_not, hk.2]
  cases killed : BitSet.bit (e.kill.word (k / BitSet.wordBits)) k with
  | false => rfl
  | true =>
    -- The set may be wider than the effect, but nothing is removed out there.
    have lt : k < width := by
      by_contra beyond
      rw [kill.beyond k (by omega)] at killed
      cases killed
    have added := less k (by rw [BitSet.contains_eq, kill.width_eq, killed]; simp [lt])
    rw [BitSet.contains_eq, Bool.and_eq_true] at added
    rw [added.2, Bool.or_true]

namespace Analysis
variable {a : Analysis} {i : Nat} {e : Solver.GenKill}

/-- A point keeps every set that arrives if and only if it reads what it certainly writes. -/
theorem keeps_iff (he : a.effect i = .ok e) :
    (∀ s t, a.problem.flow i s = .ok t → s.Included t) ↔ e.kill.Included e.gen := by
  constructor
  · intro keeps k hk
    -- The set that tells is the one that the point removes.
    have flow := flow_of_effect he e.kill
    obtain ⟨e', he', _, members⟩ := flow_ok (fits_kill he) flow
    obtain rfl := Except.ok.inj (he.symm.trans he')
    rcases (members k).mp (keeps _ _ flow k hk) with gen | ⟨_, kept⟩
    · exact gen
    · rw [hk] at kept
      cases kept
  · intro less s t flow
    obtain ⟨e', he', rfl⟩ := map_eq_ok.mp flow
    obtain rfl := Except.ok.inj (he.symm.trans he')
    exact Solver.GenKill.included_apply (proper_kill he) less s

/-! ### What may not be evaluated to its end -/

/-- Without some writes a list reads the same and writes less. -/
theorem summary_fewer {xs ys : List Access} (fewer : Access.Fewer xs ys) :
    (a.summary xs).gen = (a.summary ys).gen ∧ (a.summary xs).kill.Included (a.summary ys).kill := by
  refine ⟨congrArg a.setOf (fewer.filterMap_eq fun _ => rfl), fun k hk => ?_⟩
  obtain ⟨x, hx, written⟩ := (contains_kill xs k).mp hk
  exact (contains_kill ys k).mpr ⟨x, fewer.sublist.subset hx, written⟩

/-- What a list writes it reads as well, variable by variable. -/
theorem kill_included_iff {accesses : List Access} :
    (a.summary accesses).kill.Included (a.summary accesses).gen ↔
      ∀ x k, .write x ∈ accesses → a.tracked? x = some k →
        ∃ y ∈ accesses, a.readBy? y = some k := by
  constructor
  · intro less x k hx tracked
    have killed := (contains_kill accesses k).mpr ⟨_, hx, tracked⟩
    exact (contains_gen accesses k).mp (less k killed)
  · intro reads k hk
    obtain ⟨y, hy, written⟩ := (contains_kill accesses k).mp hk
    obtain ⟨x, tracked, rfl⟩ := writtenBy?_eq_some.mp written
    exact (contains_gen accesses k).mpr (reads x k hy tracked)

theorem kill_included_of_backed {accesses : List Access} (backed : Access.Backed accesses) :
    (a.summary accesses).kill.Included (a.summary accesses).gen :=
  kill_included_iff.mpr fun x _ hx tracked => ⟨.read x, backed x hx, tracked⟩

/-- A point that can be left by an exception reads what it certainly writes. -/
theorem kill_included_of_throws (throws : a.graph.throws i = true) (he : a.effect i = .ok e) :
    e.kill.Included e.gen := by
  unfold effect at he
  split at he
  · obtain ⟨accesses, listed, rfl⟩ := map_eq_ok.mp he
    rw [throws] at listed
    exact kill_included_of_backed (Tree.backed_accessesAs listed)
  · obtain rfl := Except.ok.inj he
    exact kill_included_of_backed fun x hx => by cases hx

/-- **What may not be evaluated to its end loses nothing.** That a node may not be evaluated to its
end changes neither what it reads nor whether it can be listed. It only takes writes away, and
leaves none without a read. So a point that can be left by an exception keeps every set that
arrives, and what is live after it is live before it. -/
theorem uncertain_keeps (a : Analysis) :
    (∀ n, (∃ err, a.program.tree.accesses n true = .error err ∧
        a.program.tree.accesses n false = .error err) ∨
      ∃ xs ys, a.program.tree.accesses n true = .ok xs ∧ a.program.tree.accesses n false = .ok ys ∧
        (a.summary xs).gen = (a.summary ys).gen ∧ xs.any a.readsAlias = ys.any a.readsAlias ∧
        (a.summary xs).kill.Included (a.summary ys).kill ∧
        (a.summary xs).kill.Included (a.summary xs).gen) ∧
    (∀ i s₀ t₀, a.graph.throws i = true → a.problem.flow i s₀ = .ok t₀ →
      ∀ s, ∃ t, a.problem.flow i s = .ok t ∧ s.Included t) ∧
    (a.graph.Closed → ∀ limit r, (a.liveVariables limit).result = .ok r →
      ∀ i < a.graph.size, a.graph.throws i = true → ∃ liveIn liveOut,
        r.liveIn? i = some liveIn ∧ r.liveOut? i = some liveOut ∧ liveOut.Included liveIn) := by
  refine ⟨fun n => ?_, ?_, ?_⟩
  · have milder : Access.Milder (a.program.tree.accesses n true) (a.program.tree.accesses n false) :=
      a.program.tree.milder_accesses n fun _ => rfl
    generalize h : a.program.tree.accesses n true = fewer at milder
    generalize a.program.tree.accesses n false = all at milder
    cases milder with
    | failed err => exact .inl ⟨err, rfl, rfl⟩
    | @listed xs ys fewer =>
      obtain ⟨same, less⟩ := a.summary_fewer fewer
      exact .inr ⟨xs, ys, rfl, rfl, same, fewer.any_eq fun _ => rfl, less,
        kill_included_of_backed (Tree.backed_accessesAs h)⟩
  · intro i s₀ t₀ throws flow s
    obtain ⟨e, he, _⟩ := map_eq_ok.mp flow
    have flow : a.problem.flow i s = .ok (e.apply s) := map_eq_ok.mpr ⟨e, he, rfl⟩
    exact ⟨_, flow, (keeps_iff he).mpr (kill_included_of_throws throws he) s _ flow⟩
  · intro closed limit r hr i hi throws
    obtain ⟨solved, _, _⟩ := run_of_liveVariables hr
    obtain ⟨before, after, e, hb, ha, he, members⟩ := live_equations closed solved hi
    refine ⟨before, after, hb, ha, fun k live => (members k).1.mpr ?_⟩
    cases kill : e.kill.contains k with
    | true => exact .inl (kill_included_of_throws throws he k kill)
    | false => exact .inr ⟨live, rfl⟩

/-- `for (o[k = 0] of xs) {} k;`, with any assignment to `k`. -/
def indexed (op : AssignOp) : Program where
  tree := ⟨#[{ kind := .name "o", parent := some 4 }, { kind := .name "k", parent := some 3 },
    { kind := .number 0, parent := some 3 },
    { kind := .assign op, children := [1, 2], parent := some 4 },
    { kind := .element, children := [0, 3], parent := some 7 },
    { kind := .name "xs", parent := some 7 }, { kind := .block, parent := some 7 },
    { kind := .forOf, children := [4, 5, 6], parent := some 10 },
    { kind := .name "k", parent := some 9 }, { kind := .exprStmt, children := [8], parent := some 10 },
    { kind := .block, children := [7, 9] }]⟩
  scopes :=
    { scopes := #[{ kind := .function, root := 10, children := [1],
                    vars := ⟨[("k", 0), ("o", 1), ("xs", 2)]⟩ },
        { kind := .body, root := 10, parent := some 0 }]
      vars := #[{ name := "k", scope := 0, node := 1, kind := .param },
        { name := "o", scope := 0, node := 0, kind := .param },
        { name := "xs", scope := 0, node := 5, kind := .param }] }
  normalized := true

/-- The graph of `indexed`, with some more edges. -/
def indexedGraph (more : List Edge) : FlowGraph where
  points := #[.implicitReturn, .node 7, .node 9]
  edges := more ++ [⟨1, .onTrue, 1⟩, ⟨1, .onFalse, 2⟩, ⟨2, .always, 0⟩]
  start := some 1

def indexedAnalysis (op : AssignOp) (more : List Edge) : Analysis where
  program := indexed op
  graph := indexedGraph more
  functionScope := 0
  bodyScope := 1
  locals := ⟨[("k", 0), ("o", 1), ("xs", 2)]⟩
  escaped := {}

/-- If the iteration can throw, the old `k` is live before it. -/
theorem uncertain_keeps_indexed :
    ∃ r, ((indexedAnalysis .assign [⟨1, .onException, 0⟩]).liveVariables 20).result = .ok r ∧
      (∃ liveIn liveOut, r.liveIn? 1 = some liveIn ∧ r.liveOut? 1 = some liveOut ∧
        liveOut.contains 0 = true ∧ liveIn.contains 0 = true) ∧
      ∃ t, (indexedAnalysis .assign [⟨1, .onException, 0⟩]).problem.flow 1 ⟨3, #[5]⟩ = .ok t ∧
        BitSet.Included ⟨3, #[5]⟩ t := by
  obtain ⟨_, flow, live⟩ := uncertain_keeps (indexedAnalysis .assign [⟨1, .onException, 0⟩])
  obtain ⟨r, solved, after⟩ : ∃ r,
      ((indexedAnalysis .assign [⟨1, .onException, 0⟩]).liveVariables 20).result = .ok r ∧
        (r.liveOut? 1).any (·.contains 0) = true := exists_ok_of_any (by decide +kernel)
  obtain ⟨liveIn, liveOut, hin, hout, kept⟩ := live (by decide) 20 r solved 1 (by decide) (by decide)
  rw [hout, Option.any_some] at after
  exact ⟨r, solved, ⟨liveIn, liveOut, hin, hout, after, kept 0 after⟩,
    flow 1 ⟨3, #[0]⟩ ⟨3, #[2]⟩ (by decide) rfl ⟨3, #[5]⟩⟩

/-! ### Iterations -/

/-- Each variable that a node certainly writes when it is evaluated, it reads as well. -/
def ReadsWritten (a : Analysis) (n : NodeId) : Prop :=
  ∀ x k, a.program.tree.Lists ⟨n, .operand, false⟩ (.write x) → a.tracked? x = some k →
    ∃ y, a.program.tree.Lists ⟨n, .operand, false⟩ y ∧ a.readBy? y = some k

theorem readsWritten_iff (acyclic : a.program.tree.Acyclic) {n : NodeId} {accesses : List Access}
    (h : a.program.tree.accesses n false = .ok accesses) :
    a.ReadsWritten n ↔ (a.summary accesses).kill.Included (a.summary accesses).gen := by
  have mem {x : Access} := Tree.mem_accessesAs_iff acyclic h (x := x)
  rw [kill_included_iff]
  constructor
  · intro reads x k hx tracked
    obtain ⟨y, lists, read⟩ := reads x k (mem.mp hx) tracked
    exact ⟨y, mem.mpr lists, read⟩
  · intro reads x k lists tracked
    obtain ⟨y, hy, read⟩ := reads x k (mem.mpr lists) tracked
    exact ⟨y, mem.mp hy, read⟩

/-- **An iteration keeps what is live after it unless its target assigns without reading.** If the
iteration cannot throw and fills something else than a name, it keeps every set that arrives if and
only if each variable that the target certainly writes is read there as well. In all other cases
it does. -/
theorem iteration_keeps_iff (a : Analysis) (acyclic : a.program.tree.Acyclic) (i n : Nat)
    (hn : a.graph.node? i = some n) (iteration : (a.program.tree.kind n).isIteration = true)
    (e : Solver.GenKill) (he : a.effect i = .ok e) :
    (e.kill.Included e.gen ↔ a.graph.throws i = true ∨
      ∀ slot, a.program.tree.slot? n = some slot → a.program.tree.name? slot = none →
        a.ReadsWritten slot) ∧
    ((∀ s t, a.problem.flow i s = .ok t → s.Included t) ↔ e.kill.Included e.gen) := by
  refine ⟨?_, keeps_iff he⟩
  cases throws : a.graph.throws i with
  | true => exact iff_of_true (kill_included_of_throws throws he) (.inl rfl)
  | false =>
    rw [effect, hn, throws] at he
    obtain ⟨accesses, listed, rfl⟩ := map_eq_ok.mp he
    rw [or_iff_right (by simp)]
    rcases Tree.iteration_slot_ok acyclic iteration listed with
      ⟨childless, rfl⟩ | ⟨slot, hs, ⟨x, named, rfl⟩ | ⟨unnamed, h⟩⟩
    · have unfilled : a.program.tree.slot? n = none := by
        rw [Tree.slot?, childless]
        rfl
      refine iff_of_true (kill_included_of_backed fun x hx => by cases hx) fun slot hs => ?_
      rw [unfilled] at hs
      cases hs
    · refine iff_of_true (kill_included_of_backed fun y hy => ?_) fun slot' hs' unnamed => ?_
      · have : y = x := by simpa using hy
        simp [this]
      · obtain rfl := Option.some.inj (hs.symm.trans hs')
        rw [named] at unnamed
        cases unnamed
    · rw [← readsWritten_iff acyclic h]
      refine ⟨fun reads slot' hs' _ => ?_, fun reads => reads slot hs unnamed⟩
      exact Option.some.inj (hs.symm.trans hs') ▸ reads

/-- `o[k = 0]` assigns `k` without reading it; `o[k += 0]` reads it. -/
theorem iteration_keeps_iff_indexed :
    (∃ e, (indexedAnalysis .assign []).effect 1 = .ok e ∧ e.kill.contains 0 = true ∧
      (indexed .assign).tree.slot? 7 = some 4 ∧ (indexed .assign).tree.name? 4 = none ∧
      ¬ (indexedAnalysis .assign []).ReadsWritten 4) ∧
    ∃ e, (indexedAnalysis .add []).effect 1 = .ok e ∧ e.kill.contains 0 = true ∧
      ∀ s t, (indexedAnalysis .add []).problem.flow 1 s = .ok t → s.Included t := by
  constructor
  · have he : (indexedAnalysis .assign []).effect 1 = .ok ⟨⟨3, #[2]⟩, ⟨3, #[1]⟩⟩ := rfl
    have slot : (indexed .assign).tree.slot? 7 = some 4 := rfl
    refine ⟨_, he, by decide, slot, rfl, fun reads => ?_⟩
    have less := (iteration_keeps_iff (indexedAnalysis .assign []) (Tree.acyclic_of_lt (by decide))
      1 7 rfl rfl _ he).1.mpr (.inr fun m hm _ => Option.some.inj (slot.symm.trans hm) ▸ reads)
    exact absurd (less 0 (by decide)) (by decide)
  · have he : (indexedAnalysis .add []).effect 1 = .ok ⟨⟨3, #[3]⟩, ⟨3, #[1]⟩⟩ := rfl
    refine ⟨_, he, by decide, ?_⟩
    refine (iteration_keeps_iff (indexedAnalysis .add []) (Tree.acyclic_of_lt (by decide))
      1 7 rfl rfl _ he).2.mpr fun k hk => ?_
    have : k = 0 ∨ k = 1 ∨ k = 2 := by
      have : k < 3 := (BitSet.lt_of_contains hk).1
      omega
    rcases this with rfl | rfl | rfl
    · decide
    · decide
    · exact absurd hk (by decide)

/-- The iteration may be over at once, and then `k` keeps its old value and is read. But the old
value does not count as live before the iteration. -/
theorem iteration_loses_index :
    prepare (indexed .assign) (indexedGraph []) 0 1 {} {} = .ok (indexedAnalysis .assign []) ∧
    (∃ e, (indexedAnalysis .assign []).effect 1 = .ok e ∧ ¬ e.kill.Included e.gen) ∧
    (∃ t, (indexedAnalysis .assign []).problem.flow 1 ⟨3, #[1]⟩ = .ok t ∧
      ¬ BitSet.Included ⟨3, #[1]⟩ t) ∧
    ∃ r, ((indexedAnalysis .assign []).liveVariables 20).result = .ok r ∧
      r.isLiveAfter 1 "k" = true ∧ r.isLiveBefore 1 "k" = false := by
  obtain ⟨r, solved, live⟩ : ∃ r, ((indexedAnalysis .assign []).liveVariables 20).result = .ok r ∧
      (r.isLiveAfter 1 "k" && !r.isLiveBefore 1 "k") = true := exists_ok_of_any (by decide +kernel)
  refine ⟨rfl, ⟨⟨⟨3, #[2]⟩, ⟨3, #[1]⟩⟩, rfl, fun less => ?_⟩, ⟨⟨3, #[2]⟩, rfl, fun less => ?_⟩,
    ⟨r, solved, by simpa using live⟩⟩
  · exact absurd (less 0 (by decide)) (by decide)
  · exact absurd (less 0 (by decide)) (by decide)

end Analysis
end Liveness
