import Liveness.Proofs.Live.Conditional
import Liveness.Proofs.Live.Execution
import Liveness.Proofs.Live.Numbering
import Liveness.Proofs.Live.Origin
import Liveness.Proofs.Live.Untracked
import Liveness.Proofs.Scope.Arena
import Liveness.Proofs.Solver.Limit

/-! Reading all arguments under one name.

Before anything is solved, the points are gone through once in their order to see whether one of
them evaluates the name of all arguments where the function does not declare it. The search ends at
the first that does. So it says yes exactly if some point that can be listed does
(`findsAlias_ok_true`, `findsAlias_ok_false`), and the points before the one it ends at can all be
listed. Later points have not been looked at: one of them may turn out not to have a list when the
solver comes to it, but only behind a point that evaluates the name. If no point does, the search
has seen them all, and the solver has nothing left to fail at but its limit.

What counts as declared is what the scopes of the parameters and of the body declare, and that is
less than what is numbered: a block of the function can declare a variable of that name, which has a
number like any other. Its writes count, but not its reads (`gen_contains_alias_iff`). -/
namespace Liveness

/-! ### Names evaluated -/

namespace Tree
open Access
variable {t : Tree}

/-- Where a look leads does not depend on whether it may be left undone. -/
theorem Leads.flagged {l l' : Look} (leads : t.Leads l l') (c : Bool) :
    ∃ c', t.Leads ⟨l.node, l.role, c⟩ ⟨l'.node, l'.role, c'⟩ := by
  induction leads with
  | condition branch hm => exact ⟨c, .condition branch hm⟩
  | iteration iteration hm => exact ⟨c, .iteration iteration hm⟩
  | declaration declaration hm => exact ⟨c, .declaration declaration hm⟩
  | left choice hm => exact ⟨c, .left choice hm⟩
  | right choice hm => exact ⟨true, .right choice hm⟩
  | test hook hm => exact ⟨c, .test hook hm⟩
  | branch hook hm => exact ⟨true, .branch hook hm⟩
  | value assign named hm => exact ⟨c, .value assign named hm⟩
  | assignTo assign unnamed hm => exact ⟨c, .assignTo assign unnamed hm⟩
  | plain plain hm => exact ⟨c, .plain plain hm⟩
  | initial named hm => exact ⟨c, .initial named hm⟩
  | declared declaration last => exact ⟨c, .declared declaration last⟩
  | unnamed unnamed _ ih =>
    obtain ⟨c', leads⟩ := ih
    exact ⟨c', .unnamed unnamed leads⟩
  | target place _ ih =>
    obtain ⟨c', leads⟩ := ih
    exact ⟨c', .target place leads⟩

/-- What a look reads does not depend on it either. -/
theorem Does.flagged {l : Look} {x : Access} (does : t.Does l x) (read : ∀ y, x ≠ .write y)
    (c : Bool) : t.Does ⟨l.node, l.role, c⟩ x := by
  induction does with
  | use name => exact .use name
  | old assign compound named => exact .old assign compound named
  | kept named => exact .kept named
  | @assign _ _ x | @initial _ x | @filled _ _ x => exact absurd rfl (read x)
  | unnamed unnamed _ ih => exact .unnamed unnamed (ih read)
  | target place _ ih => exact .target place (ih read)

theorem Lists.flagged {l : Look} {x : Access} (lists : t.Lists l x) (read : ∀ y, x ≠ .write y)
    (c : Bool) : t.Lists ⟨l.node, l.role, c⟩ x := by
  obtain ⟨l', comes, does⟩ := lists
  induction comes using Relation.ReflTransGen.head_induction_on generalizing c with
  | refl => exact ⟨_, .refl, does.flagged read c⟩
  | head leads _ ih =>
    obtain ⟨c', leads⟩ := leads.flagged c
    obtain ⟨l'', comes, does⟩ := ih c'
    exact ⟨l'', .head leads comes, does⟩

/-- The name is evaluated, as an operand, when control passes the node. -/
def EvaluatesName (t : Tree) (n : NodeId) (name : String) : Prop :=
  t.Lists ⟨n, .operand, false⟩ (.use name)

theorem use_mem_iff (acyclic : t.Acyclic) {n : NodeId} {c : Bool} {accesses : List Access}
    (h : t.accesses n c = .ok accesses) {name : String} :
    .use name ∈ accesses ↔ t.EvaluatesName n name := by
  rw [mem_accessesAs_iff acyclic h]
  exact ⟨fun lists => lists.flagged (by simp) false, fun lists => lists.flagged (by simp) c⟩

end Tree

/-- A node evaluates the name of all arguments, and neither the scope of the parameters nor that of
the body declares it. -/
def Program.EvaluatesAlias (p : Program) (fs bs : ScopeId) (n : NodeId) : Prop :=
  p.scopes.ownVar? fs argumentsAlias = none ∧ p.scopes.ownVar? bs argumentsAlias = none ∧
    p.tree.EvaluatesName n argumentsAlias

namespace Analysis
variable {a : Analysis} {i : Nat} {n : NodeId}

theorem isAlias_iff {x : String} : a.isAlias x = true ↔ x = argumentsAlias ∧
    a.program.scopes.ownVar? a.functionScope x = none ∧
    a.program.scopes.ownVar? a.bodyScope x = none := by
  simp [isAlias, and_assoc]

theorem isAlias_argumentsAlias_eq_false : a.isAlias argumentsAlias = false ↔
    (a.program.scopes.ownVar? a.functionScope argumentsAlias).isSome ∨
      (a.program.scopes.ownVar? a.bodyScope argumentsAlias).isSome := by
  simp [isAlias, Option.isSome_iff_ne_none, or_iff_not_imp_left]

theorem any_readsAlias_iff (acyclic : a.program.tree.Acyclic) {c : Bool} {accesses : List Access}
    (h : a.program.tree.accesses n c = .ok accesses) :
    accesses.any a.readsAlias = true ↔
      a.program.EvaluatesAlias a.functionScope a.bodyScope n := by
  rw [List.any_eq_true, Program.EvaluatesAlias, ← Tree.use_mem_iff acyclic h]
  constructor
  · rintro ⟨y, hy, reads⟩
    cases y with
    | use x =>
      obtain ⟨rfl, params, body⟩ := isAlias_iff.mp reads
      exact ⟨params, body, hy⟩
    | read x => cases reads
    | write x => cases reads
  · rintro ⟨params, body, hy⟩
    exact ⟨_, hy, isAlias_iff.mpr ⟨rfl, params, body⟩⟩

/-- Whether a point has a list does not depend on whether it can be left by an exception. -/
theorem exists_effect_iff (hn : a.graph.node? i = some n) :
    (∃ e, a.effect i = .ok e) ↔ ∃ accesses, a.program.tree.accesses n false = .ok accesses := by
  have milder : Access.Milder (a.program.tree.accesses n (a.graph.throws i))
      (a.program.tree.accesses n false) :=
    a.program.tree.milder_accesses n fun h => by cases h
  rw [effect, hn]
  dsimp only
  generalize a.program.tree.accesses n (a.graph.throws i) = fewer at milder ⊢
  generalize a.program.tree.accesses n false = all at milder ⊢
  cases milder with
  | failed err => simp [Except.map]
  | listed _ => exact iff_of_true ⟨_, rfl⟩ ⟨_, rfl⟩

/-- A point that can be listed evaluates the name of all arguments. -/
def AliasAt (a : Analysis) (i : Nat) : Prop :=
  ∃ n e, a.graph.node? i = some n ∧ a.effect i = .ok e ∧
    a.program.EvaluatesAlias a.functionScope a.bodyScope n

section Acyclic
variable (acyclic : a.program.tree.Acyclic)
include acyclic

/-- What the search asks of a node. -/
theorem looked_ok {found : Bool}
    (h : (a.program.tree.accesses n false).map (fun accesses => accesses.any a.readsAlias) =
      .ok found) :
    (∃ accesses, a.program.tree.accesses n false = .ok accesses) ∧
      (found = true ↔ a.program.EvaluatesAlias a.functionScope a.bodyScope n) := by
  obtain ⟨accesses, listed, rfl⟩ := map_eq_ok.mp h
  exact ⟨⟨accesses, listed⟩, any_readsAlias_iff acyclic listed⟩

/-- The search ends at a point that evaluates the name; those before it can be listed. -/
theorem findsAlias_ok_true (h : a.findsAlias = .ok true) :
    ∃ i, a.AliasAt i ∧ ∀ j < i, ∃ e, a.effect j = .ok e := by
  obtain ⟨i, n, here, yes, before⟩ := anyM_filterMap_eq_ok_true h
  have at_node (j : Nat) : a.graph.points.toList[j]?.bind Point.node? = a.graph.node? j := by
    rw [FlowGraph.node?, FlowGraph.point?, Array.getElem?_toList]
  rw [at_node] at here
  obtain ⟨listed, evaluates⟩ := looked_ok acyclic yes
  obtain ⟨e, he⟩ := (exists_effect_iff here).mpr listed
  refine ⟨i, ⟨n, e, here, he, evaluates.mp rfl⟩, fun j hj => ?_⟩
  cases hm : a.graph.node? j with
  | none => exact ⟨_, by rw [effect, hm]⟩
  | some m =>
    exact (exists_effect_iff hm).mpr (looked_ok acyclic (before j hj m ((at_node j).trans hm))).1

/-- Otherwise all points can be listed and none evaluates the name. -/
theorem findsAlias_ok_false (h : a.findsAlias = .ok false) :
    (∀ i, ¬ a.AliasAt i) ∧ ∀ i, ∃ e, a.effect i = .ok e := by
  have all {j : Nat} {m : NodeId} (hm : a.graph.node? j = some m) :=
    looked_ok acyclic (anyM_eq_ok_false h m (List.mem_filterMap.mpr (by
      obtain ⟨point, there, node⟩ := Option.bind_eq_some_iff.mp hm
      exact ⟨point, Array.mem_toList_iff.mpr (Array.mem_of_getElem? there), node⟩)))
  constructor
  · rintro i ⟨n, e, hn, _, evaluates⟩
    exact Bool.noConfusion ((all hn).2.mpr evaluates)
  · intro i
    cases hn : a.graph.node? i with
    | none => exact ⟨_, by rw [effect, hn]⟩
    | some n => exact (exists_effect_iff hn).mpr (all hn).1

end Acyclic

/-- Once set up, an analysis knows whether some point evaluates the name of all arguments. If so,
the parameters escape, and a point that cannot be listed comes after such a point; if not, nothing
is added and all points can be listed. -/
theorem alias_of_prepare {p : Program} {g : FlowGraph} {fs bs : ScopeId} {escaped : Escaped}
    {limits : Limits} (acyclic : p.tree.Acyclic) (ha : prepare p g fs bs escaped limits = .ok a) :
    (a.escaped = escaped.insertAll a.parameters ∧
      ∃ i, a.AliasAt i ∧ ∀ j < i, ∃ e, a.effect j = .ok e) ∨
    (a.escaped = escaped ∧ (∀ i, ¬ a.AliasAt i) ∧ ∀ i, ∃ e, a.effect i = .ok e) := by
  obtain ⟨locals, read, _, _, finds, rfl⟩ := prepare_ok ha
  -- What escapes plays no part in the search.
  have search (e : Escaped) : findsAlias ⟨p, g, fs, bs, locals, e, read⟩ = .ok read := finds
  cases read with
  | true => exact .inl ⟨rfl, findsAlias_ok_true acyclic (search _)⟩
  | false => exact .inr ⟨rfl, findsAlias_ok_false acyclic (search _)⟩

/-- A point that cannot be listed comes after one that evaluates the name. -/
theorem exists_aliasAt_of_error {p : Program} {g : FlowGraph} {fs bs : ScopeId} {escaped : Escaped}
    {limits : Limits} (acyclic : p.tree.Acyclic) (ha : prepare p g fs bs escaped limits = .ok a)
    {m : Nat} {err : AnalysisError} (failed : a.effect m = .error err) :
    ∃ i < m, a.AliasAt i := by
  have unlisted : ¬ ∃ e, a.effect m = .ok e := by
    rintro ⟨e, listed⟩
    rw [failed] at listed
    cases listed
  rcases alias_of_prepare acyclic ha with ⟨_, i, found, before⟩ | ⟨_, _, all⟩
  · refine ⟨i, Nat.not_le.mp fun le => unlisted ?_, found⟩
    rcases Nat.lt_or_eq_of_le le with lt | rfl
    · exact before m lt
    · obtain ⟨n, e, _, he, _⟩ := found
      exact ⟨e, he⟩
  · exact absurd (all m) unlisted

/-- Where all points can be listed, an analysis fails at its limit only, unless the graph is
entered at a point it does not have. -/
theorem error_of_liveVariables (all : ∀ i, ∃ e, a.effect i = .ok e) {limit : Nat}
    {err : AnalysisError} (failed : (a.liveVariables limit).result = .error err) :
    err = .stepLimit limit ∨ err = .missingEntry ∧ a.graph.size ≤ a.graph.entry := by
  have solved : (a.run limit).result = .error err := by
    unfold liveVariables at failed
    dsimp only at failed
    split at failed
    · cases failed
    · next e stopped => rw [stopped, Except.error.inj failed]
  rcases Solver.error_of_solve solved with cut | missing | ⟨i, x, flow⟩
  · exact .inl cut
  · exact .inr missing
  · obtain ⟨e, listed⟩ := all i
    have passes : a.problem.flow i x = .ok (e.apply x) := map_eq_ok.mpr ⟨e, listed, rfl⟩
    rw [flow] at passes
    cases passes

/-- **The search before solving misses nothing that matters.** An analysis that could be set up has
the given variables escaped, and behind them, if some point that can be listed evaluates the name of
all arguments, those parameters of the function that were not among them, in the order of
declaration. A point that cannot be listed comes after one that evaluates the name. So if there is
none of these, the analysis can fail at its limit only, unless the graph is entered at a point it
does not have. -/
theorem prepare_exact (p : Program) (g : FlowGraph) (fs bs : ScopeId) (escaped : Escaped)
    (limits : Limits) (acyclic : p.tree.Acyclic) (a : Analysis)
    (ha : prepare p g fs bs escaped limits = .ok a) :
    (a.program = p ∧ a.graph = g ∧ a.functionScope = fs ∧ a.bodyScope = bs) ∧
    ((∃ i, a.AliasAt i) → a.escaped.vars = escaped.vars ++ (((p.scopes.varsOf fs).filter fun v =>
      (p.scopes.var v).kind == .param).filter fun v => !escaped.contains v).eraseDups) ∧
    ((¬ ∃ i, a.AliasAt i) → a.escaped.vars = escaped.vars) ∧
    (∀ m err, a.effect m = .error err → ∃ i < m, a.AliasAt i) ∧
    ((¬ ∃ i, a.AliasAt i) → ∀ limit err, (a.liveVariables limit).result = .error err →
      err = .stepLimit limit ∨ err = .missingEntry ∧ g.size ≤ g.entry) := by
  have here : a.program = p ∧ a.graph = g ∧ a.functionScope = fs ∧ a.bodyScope = bs := by
    obtain ⟨_, _, _, _, _, rfl⟩ := prepare_ok ha
    exact ⟨rfl, rfl, rfl, rfl⟩
  have outcome := alias_of_prepare acyclic ha
  refine ⟨here, fun found => ?_, fun none => ?_, fun m err failed => ?_,
    fun none limit err failed => ?_⟩
  · rcases outcome with ⟨widened, _⟩ | ⟨_, none, _⟩
    · obtain ⟨rfl, _, rfl, _⟩ := here
      rw [widened, Escaped.vars_insertAll]
      rfl
    · obtain ⟨i, found⟩ := found
      exact absurd found (none i)
  · rcases outcome with ⟨_, i, found, _⟩ | ⟨same, _, _⟩
    · exact absurd ⟨i, found⟩ none
    · rw [same]
  · exact exists_aliasAt_of_error acyclic ha failed
  · rcases outcome with ⟨_, i, found, _⟩ | ⟨_, _, all⟩
    · exact absurd ⟨i, found⟩ none
    · exact here.2.1 ▸ error_of_liveVariables all failed

/-- `arguments; var [r];` in a function with the parameters `p` and `q`. -/
def spread : Program where
  tree := ⟨#[{ kind := .name "arguments", parent := some 1 },
    { kind := .exprStmt, children := [0], parent := some 5 }, { kind := .name "r", parent := some 3 },
    { kind := .arrayPattern, children := [2], parent := some 4 },
    { kind := .varDecl, children := [3], parent := some 5 }, { kind := .block, children := [1, 4] }]⟩
  scopes :=
    { scopes := #[{ kind := .function, root := 5, children := [1], vars := ⟨[("p", 0), ("q", 1)]⟩ },
        { kind := .body, root := 5, parent := some 0 }]
      vars := #[{ name := "p", scope := 0, node := 0, kind := .param },
        { name := "q", scope := 0, node := 0, kind := .param }] }
  normalized := true

def spreadGraph : FlowGraph where
  points := #[.implicitReturn, .node 1, .node 4]
  edges := [⟨2, .always, 0⟩, ⟨1, .always, 2⟩]
  start := some 1

/-- The declaration of a pattern cannot be listed, but setting up ends at the point before it; with
`q` escaped from the start, `p` comes behind it. In `countdown` no name stands for all arguments. -/
theorem prepare_exact_spread :
    (∃ a, prepare spread spreadGraph 0 1 ⟨[1]⟩ {} = .ok a ∧
      a.effect 2 = .error (.expectedName "ARRAY_PATTERN") ∧ (∃ i < 2, a.AliasAt i) ∧
      a.escaped.vars = [1, 0]) ∧
    ∃ a err, prepare countdown countdownGraph 0 1 {} {} = .ok a ∧
      (a.liveVariables 1).result = .error err ∧ err = .stepLimit 1 := by
  constructor
  · obtain ⟨_, widened, _, earlier, _⟩ := prepare_exact spread spreadGraph 0 1 ⟨[1]⟩ {}
      (Tree.acyclic_of_lt (by decide)) _ rfl
    obtain ⟨i, lt, found⟩ := earlier 2 (.expectedName "ARRAY_PATTERN") rfl
    exact ⟨_, rfl, rfl, ⟨i, lt, found⟩, (widened ⟨i, found⟩).trans (by decide)⟩
  · obtain ⟨_, widened, _, _, limited⟩ := prepare_exact countdown countdownGraph 0 1 {} {}
      (Tree.acyclic_of_lt (by decide)) (countdownAnalysis {}) rfl
    have none : ¬ ∃ i, (countdownAnalysis {}).AliasAt i := fun found =>
      absurd (widened found) (by decide)
    have failed : ((countdownAnalysis {}).liveVariables 1).result = .error (.stepLimit 1) := rfl
    exact ⟨_, _, rfl, failed, (limited none 1 _ failed).resolve_right (by decide)⟩

end Analysis

/-! ### Variables of the same name -/

/-- What is numbered are the names of the function's variables. -/
theorem ScopeForest.mem_localIndex {f : ScopeForest} {fs bs : ScopeId} {x : String} {v : VarId}
    (h : (x, v) ∈ (f.localIndex fs bs).entries) : v ∈ f.localVars fs bs ∧ (f.var v).name = x := by
  have found := (Table.find?_eq_some_iff (f.nodup_keys_localIndex fs bs)).mpr h
  rw [localIndex_eq, find?_enter, Table.find?_empty, Option.none_or] at found
  have named : (x == (f.var v).name) = true := by simpa using List.find?_some found
  exact ⟨List.mem_of_find?_eq_some found, (eq_of_beq named).symm⟩

namespace Analysis
variable {a : Analysis}

theorem locals?_ok {p : Program} {fs bs : ScopeId} {limits : Limits} {locals : VariableIndex}
    (h : locals? p fs bs limits = .ok locals) : locals = p.scopes.localIndex fs bs := by
  rw [locals?] at h
  split at h
  · cases h
  · obtain ⟨function, _, h⟩ := bind_eq_ok.mp h
    split at h
    · cases h
    · obtain ⟨body, _, h⟩ := bind_eq_ok.mp h
      split at h
      · cases h
      · dsimp only at h
        split at h
        · cases h
        · exact (Except.ok.inj h).symm

/-- A numbered name is declared by the scope of the parameters or by one within that of the body. -/
theorem declared_of_numbered {p : Program} {g : FlowGraph} {fs bs : ScopeId} {escaped : Escaped}
    {limits : Limits} (coherent : p.scopes.Coherent)
    (ha : prepare p g fs bs escaped limits = .ok a) {x : String} {k : Nat}
    (number : a.locals.idxOf? x = some k) :
    ∃ s, (s = fs ∨ s ∈ p.scopes.within bs) ∧ ∃ v, p.scopes.ownVar? s x = some v := by
  obtain ⟨locals, _, found, _, _, rfl⟩ := prepare_ok ha
  obtain rfl := locals?_ok found
  obtain ⟨v, entry⟩ := Table.entry?_of_idxOf? number
  obtain ⟨here, named⟩ := ScopeForest.mem_localIndex (List.mem_of_getElem? entry)
  obtain ⟨s, hs, hv⟩ := List.mem_flatMap.mp here
  obtain ⟨lt, inside⟩ := coherent.mem_varsOf_iff.mp hv
  exact ⟨s, List.mem_cons.mp hs, v, coherent.ownVar?_eq_some_iff.mpr ⟨lt, inside, named⟩⟩

theorem gen_contains_alias_iff (acyclic : a.program.tree.Acyclic) {k i : Nat} {n : NodeId}
    {e : Solver.GenKill} (tracked : a.tracked? argumentsAlias = some k)
    (hn : a.graph.node? i = some n) (evaluated : a.program.tree.EvaluatesName n argumentsAlias)
    (he : a.effect i = .ok e) :
    e.gen.contains k = true ↔
      (a.program.scopes.ownVar? a.functionScope argumentsAlias).isSome ∨
      (a.program.scopes.ownVar? a.bodyScope argumentsAlias).isSome ∨
        a.program.tree.Lists ⟨n, .operand, a.graph.throws i⟩ (.read argumentsAlias) := by
  rw [effect, hn] at he
  obtain ⟨accesses, listed, rfl⟩ := map_eq_ok.mp he
  have evaluates : .use argumentsAlias ∈ accesses := (Tree.use_mem_iff acyclic listed).mpr evaluated
  rw [contains_gen, ← Tree.mem_accessesAs_iff acyclic listed, ← or_assoc,
    ← isAlias_argumentsAlias_eq_false]
  constructor
  · rintro ⟨y, hy, read⟩
    obtain ⟨x, same, how⟩ := readBy?_eq_some.mp read
    obtain rfl := tracked?_injective tracked same
    rcases how with rfl | ⟨rfl, ordinary⟩
    · exact .inr hy
    · exact .inl ordinary
  · rintro (ordinary | read)
    · exact ⟨_, evaluates, readBy?_eq_some.mpr ⟨_, tracked, .inr ⟨rfl, ordinary⟩⟩⟩
    · exact ⟨_, read, readBy?_eq_some.mpr ⟨_, tracked, .inl rfl⟩⟩

/-- **A variable with the name of all arguments.** If the name has a number and does not escape, a
point that evaluates it is counted as reading the variable if the parameters or the body declare it.
If only a block within the body does, the evaluation is not counted, and the point reads the
variable only if it does so in another way. -/
theorem numbered_alias_read_iff (p : Program) (g : FlowGraph) (fs bs : ScopeId) (escaped : Escaped)
    (limits : Limits) (coherent : p.scopes.Coherent) (acyclic : p.tree.Acyclic) (a : Analysis)
    (ha : prepare p g fs bs escaped limits = .ok a) (k : Nat)
    (number : a.locals.idxOf? argumentsAlias = some k)
    (visible : a.isEscaped argumentsAlias = false) :
    (∀ i n e, g.node? i = some n → p.tree.EvaluatesName n argumentsAlias → a.effect i = .ok e →
      (e.gen.contains k = true ↔
        (p.scopes.ownVar? fs argumentsAlias).isSome ∨ (p.scopes.ownVar? bs argumentsAlias).isSome ∨
          p.tree.Lists ⟨n, .operand, g.throws i⟩ (.read argumentsAlias))) ∧
    (p.scopes.ownVar? fs argumentsAlias = none → p.scopes.ownVar? bs argumentsAlias = none →
      ∃ s ∈ p.scopes.within bs, s ≠ bs ∧ (p.scopes.ownVar? s argumentsAlias).isSome) := by
  have declared := declared_of_numbered coherent ha number
  obtain ⟨_, _, _, _, _, rfl⟩ := prepare_ok ha
  constructor
  · intro i n e hn evaluated he
    exact gen_contains_alias_iff acyclic (tracked?_eq_some.mpr ⟨visible, number⟩) hn evaluated he
  · intro params body
    obtain ⟨s, here, v, hv⟩ := declared
    rcases here with rfl | inside
    · rw [params] at hv
      cases hv
    · refine ⟨s, inside, ?_, Option.isSome_iff_exists.mpr ⟨v, hv⟩⟩
      rintro rfl
      rw [body] at hv
      cases hv

/-- `function f() { { let arguments = 0; return arguments; } }`, or with another declaration in
place of `let`. -/
def ownArguments (declaration : Kind) : Program where
  tree := ⟨#[{ kind := .number 0, parent := some 1 },
    { kind := .name "arguments", children := [0], parent := some 2 },
    { kind := declaration, children := [1], parent := some 5 },
    { kind := .name "arguments", parent := some 4 },
    { kind := .returnStmt, children := [3], parent := some 5 },
    { kind := .block, children := [2, 4], parent := some 6 },
    { kind := .block, children := [5], parent := some 9 }, { kind := .name "f", parent := some 9 },
    { kind := .paramList, parent := some 9 }, { kind := .function, children := [7, 8, 6] }]⟩
  normalized := true

def ownArgumentsGraph : FlowGraph where
  points := #[.implicitReturn, .node 2, .node 4]
  edges := [⟨2, .always, 0⟩, ⟨1, .always, 2⟩]
  start := some 1

/-- The program with the scopes laid over its function. -/
def ownArgumentsBound (declaration : Kind) : Program :=
  ((ownArguments declaration).createScopes 9).2

theorem evaluates_ownArguments (declaration : Kind) :
    (ownArguments declaration).tree.EvaluatesName 4 argumentsAlias :=
  ⟨⟨3, .operand, false⟩, .single (.plain rfl List.mem_cons_self), .use rfl⟩

/-- A `var` belongs to the body, so `return arguments` reads it. -/
theorem numbered_alias_read_iff_var :
    ∃ a e, prepare (ownArgumentsBound .varDecl) ownArgumentsGraph 0 1 {} {} = .ok a ∧
      a.locals.idxOf? argumentsAlias = some 0 ∧ a.isEscaped argumentsAlias = false ∧
      a.effect 2 = .ok e ∧ e.gen.contains 0 = true := by
  have arena : (ownArgumentsBound .varDecl).scopes.Arena :=
    .grown .empty (ScopeForest.grown_create {} (ownArguments .varDecl).tree 9)
  obtain ⟨counted, _⟩ := numbered_alias_read_iff (ownArgumentsBound .varDecl) ownArgumentsGraph 0 1
    {} {} arena.toCoherent (Tree.acyclic_of_lt (by decide)) _ rfl 0 rfl rfl
  exact ⟨_, _, rfl, rfl, rfl, rfl,
    (counted 2 4 _ rfl (evaluates_ownArguments .varDecl) rfl).mpr (.inr (.inl rfl))⟩

def ownArgumentsAnalysis : Analysis :=
  ⟨ownArgumentsBound .letDecl, ownArgumentsGraph, 0, 1, ⟨[("arguments", 0)]⟩, {}, true⟩

/-- A `let` belongs to its block. It is numbered and its value counts as written, but what is
returned does not count as read, so the variable is not live where its value is needed. -/
theorem own_arguments_dropped :
    (ownArguments .letDecl).createScopes 9 = (.ok 0, ownArgumentsBound .letDecl) ∧
    (ownArgumentsBound .letDecl).functionScopes 9 = .ok (0, 1) ∧
    (ownArguments .letDecl).tree.EvaluatesName 4 argumentsAlias ∧
    ∃ a written read r, prepare (ownArgumentsBound .letDecl) ownArgumentsGraph 0 1 {} {} = .ok a ∧
      a.locals.idxOf? argumentsAlias = some 0 ∧ a.isEscaped argumentsAlias = false ∧
      a.effect 1 = .ok written ∧ written.kill.contains 0 = true ∧
      a.effect 2 = .ok read ∧ read.gen.contains 0 = false ∧
      (a.liveVariables 20).result = .ok r ∧ r.isLiveBefore 2 argumentsAlias = false := by
  obtain ⟨r, solved, dead⟩ : ∃ r, (ownArgumentsAnalysis.liveVariables 20).result = .ok r ∧
      (!r.isLiveBefore 2 argumentsAlias) = true := exists_ok_of_any (by decide +kernel)
  have reads : ownArgumentsAnalysis.effect 2 = .ok ⟨⟨1, #[0]⟩, ⟨1, #[0]⟩⟩ := rfl
  exact ⟨rfl, rfl, evaluates_ownArguments .letDecl, ownArgumentsAnalysis, _, _, r, rfl, rfl, rfl,
    rfl, rfl, reads, rfl, solved, by simpa using dead⟩

end Analysis
end Liveness
