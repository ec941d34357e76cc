import Liveness.Proofs.Live.Escape
import Liveness.Proofs.Live.Monotone

/-! Escaped variables take nothing with them.

Which variables escape decides which reads and writes count, and so what is live where and in which
order the solver finds out. But it decides it for each number on its own. A number has one name, and
an access concerns the number only through that name: if some variable of the name escapes, no point
reads the number, and otherwise each point reads and writes it just as if nothing else escaped. So
when more variables escape, theirs are live nowhere and all others where they were before. -/
namespace Liveness

/-- The number is that of a name which an escaped variable has. -/
def LiveResult.Hides (r : LiveResult) (p : Program) (k : Nat) : Prop :=
  ∃ x v, r.locals.entry? k = some (x, v) ∧ ∃ w ∈ r.escaped.vars, (p.scopes.var w).name = x

namespace Analysis
variable {a : Analysis} {k : Nat}

/-- The same function with other variables escaped. -/
def escaping (a : Analysis) (escaped : Escaped) : Analysis := { a with escaped }

/-! ### Setting up -/

/-- The variables that escape in the end: those given, and the parameters if all arguments can be
read under one name. -/
def allEscaped (a : Analysis) (escaped : Escaped) : Escaped :=
  if a.aliasRead then escaped.insertAll a.parameters else escaped

theorem allEscaped_subset {escaped escaped' : Escaped} (sub : ∀ v ∈ escaped.vars, v ∈ escaped'.vars) :
    ∀ v ∈ (a.allEscaped escaped).vars, v ∈ (a.allEscaped escaped').vars := by
  intro v hv
  unfold allEscaped at hv ⊢
  split at hv
  · next read =>
    rw [if_pos read]
    exact Escaped.mem_insertAll.mpr ((Escaped.mem_insertAll.mp hv).imp_left (sub v))
  · next unread =>
    rw [if_neg unread]
    exact sub v hv

/-- If the escaped variables are known, which they are makes no other difference to setting up. -/
theorem prepare_escaping {p : Program} {g : FlowGraph} {fs bs : ScopeId} {limits : Limits}
    {escaped escaped' : Escaped} (known : ∀ v ∈ escaped.vars, v < p.scopes.vars.size)
    (known' : ∀ v ∈ escaped'.vars, v < p.scopes.vars.size) :
    prepare p g fs bs escaped' limits =
      (prepare p g fs bs escaped limits).map fun a => a.escaping (a.allEscaped escaped') := by
  have all {e : Escaped} (known : ∀ v ∈ e.vars, v < p.scopes.vars.size) :
      e.vars.find? (fun v => p.scopes.vars.size ≤ v) = none := by
    rw [List.find?_eq_none]
    intro v hv
    simpa using known v hv
  unfold prepare
  rw [all known, all known']
  cases locals? p fs bs limits with
  | error e => rfl
  | ok locals =>
    simp only [bind, Except.bind]
    let a : Analysis :=
      { program := p, graph := g, functionScope := fs, bodyScope := bs, locals, escaped }
    have finds : (a.escaping escaped').findsAlias = a.findsAlias := rfl
    simp only [a, escaping] at finds
    rw [finds]
    split
    · rfl
    · split <;> rfl

theorem escaped_of_prepare {p : Program} {g : FlowGraph} {fs bs : ScopeId} {limits : Limits}
    {escaped : Escaped} (h : prepare p g fs bs escaped limits = .ok a) :
    a.escaped = a.allEscaped escaped := by
  obtain ⟨_, _, _, _, _, rfl⟩ := prepare_ok h
  rfl

/-! ### Numbers of escaped names -/

theorem isEscaped_eq_true {x : String} :
    a.isEscaped x = true ↔ ∃ w ∈ a.escaped.vars, (a.program.scopes.var w).name = x := by
  simp [isEscaped]

/-- No name stands for the number. -/
def Untracked (a : Analysis) (k : Nat) : Prop := ∀ x, a.tracked? x ≠ some k

theorem untracked_of_isEscaped {x : String} {v : VarId} (entry : a.locals.entry? k = some (x, v))
    (escaped : a.isEscaped x = true) : a.Untracked k := by
  intro y tracked
  obtain ⟨ordinary, number⟩ := tracked?_eq_some.mp tracked
  obtain ⟨w, entry'⟩ := Table.entry?_of_idxOf? number
  obtain rfl : x = y := congrArg Prod.fst (Option.some.inj (entry.symm.trans entry'))
  rw [escaped] at ordinary
  cases ordinary

theorem Untracked.not_readsAhead (h : a.Untracked k) (i : Nat) : ¬ a.ReadsAhead k i := by
  rintro ⟨_, last, _, ⟨e, he, gen⟩, _⟩
  obtain ⟨accesses, rfl⟩ := effect_eq_summary he
  obtain ⟨y, _, read⟩ := (contains_gen accesses k).mp gen
  obtain ⟨x, tracked, _⟩ := readBy?_eq_some.mp read
  exact h x tracked

/-- A number that no name stands for is live nowhere. -/
theorem Untracked.dead (h : a.Untracked k) (closed : a.graph.Closed) {limit : Nat}
    {s : Solver.Solution BitSet} (solved : (a.run limit).result = .ok s) {i : Nat}
    (hi : i < a.graph.size) {before after : BitSet} (hb : s.before? i = some before)
    (ha : s.after? i = some after) : before.contains k = false ∧ after.contains k = false := by
  have dead {j : Nat} (hj : j < a.graph.size) {t : BitSet} (ht : s.before? j = some t) :
      t.contains k = false := by
    by_contra live
    exact h.not_readsAhead j (readsAhead_of_live solved hj ht (Bool.not_eq_false _ ▸ live))
  refine ⟨dead hi hb, ?_⟩
  obtain ⟨_, _, _, _, ha', _, members⟩ := live_equations closed solved hi
  obtain rfl := Option.some.inj (ha.symm.trans ha')
  by_contra live
  obtain ⟨_, j, next, t, ht, live⟩ := (members k).2.mp (Bool.not_eq_false _ ▸ live)
  rw [dead (closed.successor_lt next) ht] at live
  cases live

/-! ### All other numbers -/

/-- The number stands for the same name in both analyses. -/
def SameName (a b : Analysis) (k : Nat) : Prop :=
  ∀ x, a.tracked? x = some k ↔ b.tracked? x = some k

theorem sameName_escaping {escaped : Escaped} (sub : ∀ v ∈ a.escaped.vars, v ∈ escaped.vars)
    (visible : ∀ x v, a.locals.entry? k = some (x, v) → (a.escaping escaped).isEscaped x = false) :
    a.SameName (a.escaping escaped) k := by
  intro x
  rw [tracked?_eq_some, tracked?_eq_some]
  constructor
  · rintro ⟨_, number⟩
    obtain ⟨v, entry⟩ := Table.entry?_of_idxOf? number
    exact ⟨visible x v entry, number⟩
  · rintro ⟨ordinary, number⟩
    refine ⟨Bool.eq_false_iff.mpr fun escapes => ?_, number⟩
    obtain ⟨w, hw, name⟩ := isEscaped_eq_true.mp escapes
    have still := (isEscaped_eq_true (a := a.escaping escaped)).mpr ⟨w, sub w hw, name⟩
    rw [still] at ordinary
    cases ordinary

section SameName
variable {escaped : Escaped} (same : a.SameName (a.escaping escaped) k)
include same

theorem SameName.readBy?_iff (y : Access) :
    a.readBy? y = some k ↔ (a.escaping escaped).readBy? y = some k := by
  rw [readBy?_eq_some, readBy?_eq_some]
  exact exists_congr fun x => and_congr_left' (same x)

theorem SameName.writtenBy?_iff (y : Access) :
    a.writtenBy? y = some k ↔ (a.escaping escaped).writtenBy? y = some k := by
  rw [writtenBy?_eq_some, writtenBy?_eq_some]
  exact exists_congr fun x => and_congr_left' (same x)

/-- Each point reads and writes what stands for the same name in both. -/
theorem SameName.carries : a.Carries (a.escaping escaped) k := by
  have summary (accesses : List Access) :
      ((a.summary accesses).gen.contains k = true →
        ((a.escaping escaped).summary accesses).gen.contains k = true) ∧
      (((a.escaping escaped).summary accesses).kill.contains k = true →
        (a.summary accesses).kill.contains k = true) := by
    rw [contains_gen, contains_gen, contains_kill, contains_kill]
    constructor
    · rintro ⟨y, hy, read⟩
      exact ⟨y, hy, (same.readBy?_iff y).mp read⟩
    · rintro ⟨y, hy, written⟩
      exact ⟨y, hy, (same.writtenBy?_iff y).mpr written⟩
  intro i e he
  rw [effect] at he
  rw [effect, show (a.escaping escaped).graph.node? i = a.graph.node? i from rfl]
  cases hn : a.graph.node? i with
  | some n =>
    rw [hn] at he
    obtain ⟨accesses, listed, rfl⟩ := map_eq_ok.mp he
    exact ⟨_, map_eq_ok.mpr ⟨accesses, listed, rfl⟩, summary accesses⟩
  | none =>
    rw [hn] at he
    obtain rfl := Except.ok.inj he
    exact ⟨_, rfl, summary []⟩

theorem SameName.symm : (a.escaping escaped).SameName a k := fun x => (same x).symm

/-- A number that stands for the same name in both is live at the same places. -/
theorem SameName.live_eq (closed : a.graph.Closed) {limit limit' : Nat}
    {s s' : Solver.Solution BitSet} (h : (a.run limit).result = .ok s)
    (h' : ((a.escaping escaped).run limit').result = .ok s') {i : Nat} (hi : i < a.graph.size)
    {before after before' after' : BitSet} (hb : s.before? i = some before)
    (ha : s.after? i = some after) (hb' : s'.before? i = some before')
    (ha' : s'.after? i = some after') :
    before'.contains k = before.contains k ∧ after'.contains k = after.contains k := by
  have part : a.graph.Part (a.escaping escaped).graph := ⟨rfl, fun _ he => he⟩
  have part' : (a.escaping escaped).graph.Part a.graph := ⟨rfl, fun _ he => he⟩
  -- Letting the old variables escape again gives the first analysis back.
  have back : (a.escaping escaped).Carries ((a.escaping escaped).escaping a.escaped) k :=
    SameName.carries same.symm
  constructor
  · exact Bool.eq_iff_iff.mpr ⟨before_carry part' back closed h' h hi hb' hb,
      before_carry part same.carries closed h h' hi hb hb'⟩
  · exact Bool.eq_iff_iff.mpr ⟨after_carry part' back closed h' h hi ha' ha,
      after_carry part same.carries closed h h' hi ha ha'⟩

end SameName

/-- **An escaped variable is live nowhere, and no other variable notices.** If the variables that
escape are among those that escape a second time, setting up has the same outcome but for them. The
second time no number of an escaped name is live anywhere, and every other number is live where it
was the first time. -/
theorem live_escaping (p : Program) (g : FlowGraph) (closed : g.Closed) (fs bs : ScopeId)
    (escaped₁ escaped₂ : Escaped) (sub : ∀ v ∈ escaped₁.vars, v ∈ escaped₂.vars)
    (known : ∀ v ∈ escaped₂.vars, v < p.scopes.vars.size) (limits : Limits) :
    prepare p g fs bs escaped₂ limits =
      (prepare p g fs bs escaped₁ limits).map (fun a => a.escaping (a.allEscaped escaped₂)) ∧
    ∀ a₁ a₂, prepare p g fs bs escaped₁ limits = .ok a₁ →
      prepare p g fs bs escaped₂ limits = .ok a₂ →
    ∀ limit₁ limit₂ r₁ r₂, (a₁.liveVariables limit₁).result = .ok r₁ →
      (a₂.liveVariables limit₂).result = .ok r₂ →
      r₁.locals = r₂.locals ∧ r₂.escaped = a₂.allEscaped escaped₂ ∧
      ∀ n < g.size, (∃ in₁ out₁ in₂ out₂,
        r₁.liveIn? n = some in₁ ∧ r₁.liveOut? n = some out₁ ∧
        r₂.liveIn? n = some in₂ ∧ r₂.liveOut? n = some out₂ ∧ ∀ k,
        (r₂.Hides p k → in₂.contains k = false ∧ out₂.contains k = false) ∧
        (¬ r₂.Hides p k → in₂.contains k = in₁.contains k ∧ out₂.contains k = out₁.contains k)) ∧
        ∀ v ∈ r₂.escaped.vars, r₂.isLiveBefore n (p.scopes.var v).name = false ∧
          r₂.isLiveAfter n (p.scopes.var v).name = false := by
  have prepared : prepare p g fs bs escaped₂ limits =
      (prepare p g fs bs escaped₁ limits).map fun a => a.escaping (a.allEscaped escaped₂) :=
    prepare_escaping (fun v hv => known v (sub v hv)) known
  refine ⟨prepared, fun a₁ a₂ ha₁ ha₂ limit₁ limit₂ r₁ r₂ hr₁ hr₂ => ?_⟩
  obtain ⟨rfl, rfl⟩ := of_prepare ha₁
  have final₁ := escaped_of_prepare ha₁
  obtain rfl : a₁.escaping (a₁.allEscaped escaped₂) = a₂ := by
    rw [ha₁, ha₂] at prepared
    exact (Except.ok.inj prepared).symm
  obtain ⟨solved₁, locals₁, _⟩ := run_of_liveVariables hr₁
  obtain ⟨solved₂, locals₂, final₂⟩ := run_of_liveVariables hr₂
  refine ⟨locals₁.trans locals₂.symm, final₂, fun n hn => ?_⟩
  obtain ⟨before₁, in₁⟩ : ∃ t, r₁.liveIn? n = some t := ⟨_, Solver.before?_of_solve solved₁ hn⟩
  obtain ⟨after₁, out₁⟩ : ∃ t, r₁.liveOut? n = some t := ⟨_, Solver.after?_of_solve solved₁ hn⟩
  obtain ⟨before₂, in₂⟩ : ∃ t, r₂.liveIn? n = some t := ⟨_, Solver.before?_of_solve solved₂ hn⟩
  obtain ⟨after₂, out₂⟩ : ∃ t, r₂.liveOut? n = some t := ⟨_, Solver.after?_of_solve solved₂ hn⟩
  have hidden : ∀ k, r₂.Hides a₁.program k →
      before₂.contains k = false ∧ after₂.contains k = false := by
    rintro k ⟨x, v, entry, w, hw, name⟩
    rw [locals₂] at entry
    rw [final₂] at hw
    have untracked := untracked_of_isEscaped entry (isEscaped_eq_true.mpr ⟨w, hw, name⟩)
    exact untracked.dead closed solved₂ hn in₂ out₂
  refine ⟨⟨_, _, _, _, in₁, out₁, in₂, out₂, fun k => ⟨hidden k, fun visible => ?_⟩⟩, ?_⟩
  · refine (sameName_escaping ?_ fun x v entry => ?_).live_eq closed solved₁ solved₂ hn
      in₁ out₁ in₂ out₂
    · rw [final₁]
      exact allEscaped_subset sub
    · refine Bool.eq_false_iff.mpr fun escapes => visible ?_
      obtain ⟨w, hw, name⟩ := isEscaped_eq_true.mp escapes
      exact ⟨x, v, locals₂ ▸ entry, w, final₂ ▸ hw, name⟩
  · intro v hv
    rw [LiveResult.isLiveBefore, LiveResult.isLiveAfter, in₂, out₂]
    cases number : r₂.locals.idxOf? (a₁.program.scopes.var v).name with
    | none => exact ⟨rfl, rfl⟩
    | some k =>
      obtain ⟨w, entry⟩ := Table.entry?_of_idxOf? number
      exact hidden k ⟨_, w, entry, v, hv, rfl⟩

def countdownAnalysis (escaped : Escaped) : Analysis where
  program := countdown
  graph := countdownGraph
  functionScope := 0
  bodyScope := 1
  locals := ⟨[("i", 0), ("step", 1)]⟩
  escaped

/-- The result for `countdown`, given the set before and after the loop. -/
def countdownResult (live : UInt64) (escaped : Escaped) : LiveResult :=
  ⟨⟨.backward, #[⟨⟨2, #[0]⟩, ⟨2, #[0]⟩⟩, ⟨⟨2, #[live]⟩, ⟨2, #[live]⟩⟩, ⟨⟨2, #[live]⟩, ⟨2, #[live]⟩⟩], 4⟩,
    ⟨[("i", 0), ("step", 1)]⟩, escaped⟩

/-- With `step` escaped it is no longer live before the loop, and `i` still is. -/
theorem live_escaping_countdown :
    ∃ a₁ a₂ r₁ r₂, prepare countdown countdownGraph 0 1 {} {} = .ok a₁ ∧
      prepare countdown countdownGraph 0 1 ⟨[1]⟩ {} = .ok a₂ ∧
      (a₁.liveVariables 20).result = .ok r₁ ∧ (a₂.liveVariables 20).result = .ok r₂ ∧
      ∃ in₁ in₂, r₁.liveIn? 1 = some in₁ ∧ r₂.liveIn? 1 = some in₂ ∧
        in₁.contains 0 = true ∧ in₂.contains 0 = in₁.contains 0 ∧
        in₁.contains 1 = true ∧ in₂.contains 1 = false ∧ r₂.isLiveBefore 1 "step" = false := by
  have prepared₁ : prepare countdown countdownGraph 0 1 {} {} = .ok (countdownAnalysis {}) := rfl
  have prepared₂ : prepare countdown countdownGraph 0 1 ⟨[1]⟩ {} = .ok (countdownAnalysis ⟨[1]⟩) := rfl
  have solved₁ : ((countdownAnalysis {}).liveVariables 20).result = .ok (countdownResult 3 {}) := rfl
  have solved₂ : ((countdownAnalysis ⟨[1]⟩).liveVariables 20).result =
      .ok (countdownResult 1 ⟨[1]⟩) := rfl
  obtain ⟨_, _, sets⟩ := (live_escaping countdown countdownGraph (by decide) 0 1 {} ⟨[1]⟩ (by decide)
    (by decide) {}).2 _ _ prepared₁ prepared₂ 20 20 _ _ solved₁ solved₂
  obtain ⟨⟨in₁, _, in₂, _, here₁, _, here₂, _, members⟩, names⟩ := sets 1 (by decide)
  have live : in₁.contains 0 = true ∧ in₁.contains 1 = true := by
    obtain rfl := Option.some.inj here₁
    decide
  have hidden : (countdownResult 1 ⟨[1]⟩).Hides countdown 1 := ⟨"step", 1, rfl, 1, by decide, rfl⟩
  have visible : ¬ (countdownResult 1 ⟨[1]⟩).Hides countdown 0 := by
    rintro ⟨x, v, entry, w, hw, name⟩
    obtain rfl := List.mem_singleton.mp hw
    cases entry
    exact absurd name (by decide)
  exact ⟨_, _, _, _, prepared₁, prepared₂, solved₁, solved₂, in₁, in₂, here₁, here₂, live.1,
    ((members 0).2 visible).1, live.2, ((members 1).1 hidden).1, (names 1 (by decide)).1⟩

end Analysis
end Liveness
