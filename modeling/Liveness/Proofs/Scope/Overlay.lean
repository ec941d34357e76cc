import Liveness.Proofs.Scope.Forest
import Liveness.Proofs.Scope.Lexical

/-! Scopes laid over a program follow its text.

While scopes are opened, the forest mirrors the part of the text that has been gone through:
each scope belongs to one node, has that node's kind and names, and sits in the scope of the
nearest node around that has one. This is what `Overlay` says, with the part gone through as a
set of nodes. Opening the scope of one more node adds that node to the set, provided that the
scope handed down is the one of the nearest node around; going through the children of a node
adds what is below them, one after the other. At the end the set is everything in the program
that has a scope. -/
namespace Liveness

namespace Bind

/-- From `f` a step succeeds with `a` and leaves `f'`. -/
def Gives (m : Bind α) (f : ScopeForest) (a : α) (f' : ScopeForest) : Prop :=
  m.run f = (.ok a, f')

theorem gives_pure {a b : α} {f f' : ScopeForest} :
    (pure a : Bind α).Gives f b f' ↔ a = b ∧ f = f' := by
  constructor
  · intro h
    cases h
    exact ⟨rfl, rfl⟩
  · rintro ⟨rfl, rfl⟩
    rfl

/-- If two steps succeed one after the other, each of them does. -/
theorem gives_bind {m : Bind α} {k : α → Bind β} {f f' : ScopeForest} {b : β} :
    (m >>= k).Gives f b f' ↔ ∃ a g, m.Gives f a g ∧ (k a).Gives g b f' := by
  unfold Gives
  rw [run_bind]
  rcases m.run f with ⟨e | a, g⟩
  · constructor
    · intro h
      cases h
    · intro ⟨a, g', h, _⟩
      cases h
  · constructor
    · intro h
      exact ⟨a, g, rfl, h⟩
    · intro ⟨a', g', same, h⟩
      cases same
      exact h

theorem not_gives_throw {e : BindError} {f f' : ScopeForest} {a : α} :
    ¬ (throw e : Bind α).Gives f a f' := by
  intro h
  cases h

theorem gives_openScope {kind : ScopeKind} {root : NodeId} {parent : Option ScopeId}
    {f f' : ScopeForest} {s : ScopeId} :
    (openScope kind root parent).Gives f s f' ↔ f.openScope kind root parent = (s, f') := by
  show ((Except.ok (f.openScope kind root parent).1 : Except BindError ScopeId),
    (f.openScope kind root parent).2) = (.ok s, f') ↔ _
  rw [Prod.ext_iff, Prod.ext_iff, Except.ok.injEq]

theorem gives_declare {s : ScopeId} {d : Decl} {f f' : ScopeForest} (h : (declare s d).Gives f () f') :
    ∃ v, f.declare s d.name d.node d.kind = .ok (v, f') := by
  unfold Gives declare at h
  rw [ExceptT.run_mk] at h
  split at h
  · next v g done =>
    cases h
    exact ⟨v, done⟩
  · cases h

end Bind

namespace ScopeForest

/-- Names declared in a scope follow those that were there; a name is listed where it first
comes up. -/
theorem Coherent.declareAll {s : ScopeId} (ds : List (Except BindError Decl)) {f f' : ScopeForest}
    (h : f.Coherent) (hs : s < f.scopes.size) (names : List String)
    (known : (f.scope s).vars.keys = names.eraseDups) (run : (Bind.declareAll s ds).Gives f () f') :
    f'.Coherent ∧ Keeps s f f' ∧
      (f'.scope s).vars.keys = (names ++ Tree.declNames ds).eraseDups := by
  induction ds generalizing f names with
  | nil =>
    obtain ⟨_, rfl⟩ := Bind.gives_pure.mp run
    refine ⟨h, .refl s f, ?_⟩
    rw [known, show Tree.declNames [] = [] from rfl, List.append_nil]
  | cons d ds ih =>
    cases d with
    | error e => exact absurd run Bind.not_gives_throw
    | ok d =>
      obtain ⟨_, g, first, rest⟩ := Bind.gives_bind.mp run
      obtain ⟨v, done⟩ := Bind.gives_declare first
      obtain ⟨coherent, keeps, keys⟩ := h.declare hs done
      have known' : (g.scope s).vars.keys = (names ++ [d.name]).eraseDups := by
        rw [keys, known, List.eraseDups_append]
        by_cases old : d.name ∈ names <;> simp [old, List.removeAll, List.eraseDups_cons]
      obtain ⟨coherent', keeps', keys'⟩ := ih coherent (keeps.size ▸ hs) _ known' rest
      refine ⟨coherent', keeps.trans keeps', ?_⟩
      rw [keys', List.append_assoc]
      rfl

/-- A scope has been opened at a node and names declared in it; all else is as it was. -/
structure Opened (f : ScopeForest) (kind : ScopeKind) (n : NodeId) (parent : Option ScopeId)
    (names : List String) (f' : ScopeForest) : Prop where
  coherent : f'.Coherent
  size : f'.scopes.size = f.scopes.size + 1
  at_eq : ∀ m, f'.at? m = if m = n then some f.scopes.size else f.at? m
  kind_eq : ∀ r : Nat, (f'.scope r).kind = if r = f.scopes.size then kind else (f.scope r).kind
  root_eq : ∀ r : Nat, (f'.scope r).root = if r = f.scopes.size then n else (f.scope r).root
  parent_eq : ∀ r : Nat,
    (f'.scope r).parent = if r = f.scopes.size then parent else (f.scope r).parent
  keys_eq : ∀ r : Nat, (f'.scope r).vars.keys =
    if r = f.scopes.size then names.eraseDups else (f.scope r).vars.keys

theorem Coherent.opened {f f' : ScopeForest} (h : f.Coherent) {kind : ScopeKind} {n : NodeId}
    {parent : Option ScopeId} (has : f.Has parent) {decls : List (Except BindError Decl)}
    (run : (Bind.declareAll f.scopes.size decls).Gives (f.openScope kind n parent).2 () f') :
    f.Opened kind n parent (Tree.declNames decls) f' := by
  have last : f.scopes.size < (f.openScope kind n parent).2.scopes.size := by
    rw [size_openScope]
    omega
  have blank : ((f.openScope kind n parent).2.scope f.scopes.size).vars.keys = [].eraseDups := by
    rw [table_openScope has, scope_of_size_le (Nat.le_refl _)]
    rfl
  obtain ⟨coherent, keeps, keys⟩ := (h.openScope has).declareAll decls last [] blank run
  refine ⟨coherent, keeps.size.trans size_openScope, fun m => ?_, fun r => ?_, fun r => ?_,
    fun r => ?_, fun r => ?_⟩
  · rw [at?, keeps.roots]
    exact at?_openScope m
  · rw [keeps.frame]
    exact kind_openScope has r
  · rw [keeps.frame]
    exact root_openScope has r
  · rw [keeps.frame]
    exact parent_openScope has r
  · split
    · next same => rw [same, keys, List.nil_append]
    · next other => rw [keeps.others r other, table_openScope has]

/-- Scopes that were there still are, at the nodes they had. -/
structure Extends (f f' : ScopeForest) : Prop where
  size_le : f.scopes.size ≤ f'.scopes.size
  root_eq : ∀ s < f.scopes.size, (f'.scope s).root = (f.scope s).root

theorem Extends.refl (f : ScopeForest) : f.Extends f := ⟨Nat.le_refl _, fun _ _ => rfl⟩

theorem Extends.trans {f g h : ScopeForest} (fg : f.Extends g) (gh : g.Extends h) : f.Extends h where
  size_le := Nat.le_trans fg.size_le gh.size_le
  root_eq s hs := (gh.root_eq s (Nat.lt_of_lt_of_le hs fg.size_le)).trans (fg.root_eq s hs)

end ScopeForest

namespace Tree
variable {t : Tree} {root : NodeId}

/-- The forest mirrors the text as far as the nodes in `done` are concerned. -/
structure Overlay (t : Tree) (root : NodeId) (done : NodeId → Prop) (f : ScopeForest) : Prop where
  coherent : f.Coherent
  at_iff : ∀ (n : NodeId) (s : Nat), f.at? n = some s ↔ s < f.scopes.size ∧ (f.scope s).root = n
  opened : ∀ n, (∃ s, f.at? n = some s) ↔ done n
  kind_eq : ∀ s < f.scopes.size, (f.scope s).kind = t.scopeKind (f.scope s).root
  around : ∀ s < f.scopes.size, (f.scope s).parent.map (fun p => (f.scope p).root) =
    (t.parent (f.scope s).root).bind (t.opener? root)
  names : ∀ s < f.scopes.size,
    (f.scope s).vars.keys = (t.declaredNames (f.scope s).root).eraseDups

namespace Overlay
variable {done : NodeId → Prop} {f : ScopeForest}

theorem empty (t : Tree) (root : NodeId) : Overlay t root (fun _ => False) {} where
  coherent := .empty
  at_iff n s := by simp [ScopeForest.at?]
  opened n := by simp [ScopeForest.at?]
  kind_eq s hs := by cases hs
  around s hs := by cases hs
  names s hs := by cases hs

theorem congr {done' : NodeId → Prop} (h : Overlay t root done f) (same : ∀ m, done m ↔ done' m) :
    Overlay t root done' f where
  coherent := h.coherent
  at_iff := h.at_iff
  opened n := (h.opened n).trans (same n)
  kind_eq := h.kind_eq
  around := h.around
  names := h.names

/-- A scope opened at a node that had none is found there, and the others where they were. -/
theorem at_iff_of_opened (h : Overlay t root done f) {kind : ScopeKind} {n : NodeId}
    {parent : Option ScopeId} {names : List String} {f' : ScopeForest}
    (opened : f.Opened kind n parent names f') (new : ¬ done n) (m : NodeId) (s : Nat) :
    f'.at? m = some s ↔ s < f'.scopes.size ∧ (f'.scope s).root = m := by
  rw [opened.at_eq, opened.root_eq, opened.size]
  by_cases same : s = f.scopes.size
  · have absent : f.at? m ≠ some s := fun found =>
      Nat.lt_irrefl _ (same ▸ ((h.at_iff m s).mp found).1)
    by_cases here : m = n
    · simp [here, same]
    · simp [here, same, Ne.symm here, same ▸ absent]
  · have lt : s < f.scopes.size ↔ s < f.scopes.size + 1 := by omega
    rw [if_neg same, ← lt, ← h.at_iff]
    by_cases here : m = n
    · have absent : f.at? m ≠ some s := fun found => new (here ▸ (h.opened m).mp ⟨s, found⟩)
      simp [here, here ▸ absent, Ne.symm same]
    · rw [if_neg here]

/-- A node whose scope has been opened, in that of the nearest node around, and whose names
have been declared, is done. -/
theorem opening (h : Overlay t root done f) {kind : ScopeKind} {n : NodeId} {parent : Option ScopeId}
    {f' : ScopeForest} (opened : f.Opened kind n parent (t.declaredNames n) f') (new : ¬ done n)
    (kind_eq : kind = t.scopeKind n) (has : f.Has parent)
    (around : parent.map (fun p => (f.scope p).root) = (t.parent n).bind (t.opener? root)) :
    Overlay t root (fun m => done m ∨ m = n) f' := by
  have old {r : Nat} (hr : r < f'.scopes.size) (other : r ≠ f.scopes.size) : r < f.scopes.size := by
    have := opened.size
    omega
  -- The scope around any scope is one of the old ones.
  have roots {q : Option ScopeId} (hq : f.Has q) :
      q.map (fun p => (f'.scope p).root) = q.map (fun p => (f.scope p).root) := by
    cases q with
    | none => rfl
    | some p => exact congrArg some ((opened.root_eq p).trans (if_neg (Nat.ne_of_lt (hq p rfl))))
  refine ⟨opened.coherent, h.at_iff_of_opened opened new, fun m => ?_, fun s hs => ?_,
    fun s hs => ?_, fun s hs => ?_⟩
  · rw [opened.at_eq, ← h.opened]
    by_cases here : m = n <;> simp [here]
  · rw [opened.kind_eq, opened.root_eq]
    split
    · exact kind_eq
    · next other => exact h.kind_eq s (old hs other)
  · rw [opened.parent_eq, opened.root_eq]
    split
    · exact (roots has).trans around
    · next other =>
      have lt := old hs other
      have has : f.Has (f.scope s).parent := fun p hp => Nat.lt_trans (h.coherent.outward s p hp) lt
      exact (roots has).trans (h.around s lt)
  · rw [opened.keys_eq, opened.root_eq]
    split
    · rfl
    · next other => exact h.names s (old hs other)

end Overlay

/-! ### Steps inside a scope -/

/-- A step in the scope `s` of the node `k` does the nodes of `part`, if none of them is
done. -/
def Lays (t : Tree) (root : NodeId) (step : Bind Unit) (s : ScopeId) (k : NodeId)
    (part : NodeId → Prop) : Prop :=
  ∀ ⦃done f f'⦄, Overlay t root done f → (∀ m, part m → ¬ done m) → s < f.scopes.size →
    (f.scope s).root = k → step.Gives f () f' →
    Overlay t root (fun m => done m ∨ part m) f' ∧ f.Extends f'

theorem Lays.congr {step : Bind Unit} {s : ScopeId} {k : NodeId} {part part' : NodeId → Prop}
    (h : t.Lays root step s k part) (same : ∀ m, part m ↔ part' m) :
    t.Lays root step s k part' := by
  intro done f f' overlay new hs hk run
  obtain ⟨overlay', extends'⟩ :=
    h overlay (fun m hm => new m ((same m).mp hm)) hs hk run
  exact ⟨overlay'.congr fun m => or_congr_right (same m), extends'⟩

/-- Going through nodes does what is done for each, if no two of them do the same. -/
theorem Lays.each {visit : NodeId → ScopeId → Bind Unit} {s : ScopeId} {k : NodeId}
    {part : NodeId → NodeId → Prop} {ns : List NodeId}
    (visits : ∀ n ∈ ns, t.Lays root (visit n s) s k (part n))
    (apart : ns.Pairwise fun n n' => ∀ m, part n m → ¬ part n' m) :
    t.Lays root (Bind.each visit s ns) s k (fun m => ∃ n ∈ ns, part n m) := by
  induction ns with
  | nil =>
    intro done f f' overlay new hs hk run
    obtain ⟨_, rfl⟩ := Bind.gives_pure.mp run
    exact ⟨overlay.congr fun m => by simp, .refl f⟩
  | cons n ns ih =>
    intro done f f' overlay new hs hk run
    obtain ⟨others, apart⟩ := List.pairwise_cons.mp apart
    obtain ⟨_, g, first, rest⟩ := Bind.gives_bind.mp run
    obtain ⟨overlay', extends'⟩ := visits n (by simp) overlay
      (fun m hm => new m ⟨n, by simp, hm⟩) hs hk first
    have new' : ∀ m, (∃ n' ∈ ns, part n' m) → ¬ (done m ∨ part n m) := by
      rintro m ⟨n', hn', hm⟩ (old | here)
      · exact new m ⟨n', by simp [hn'], hm⟩ old
      · exact others n' hn' m here hm
    obtain ⟨overlay'', extends''⟩ := ih (fun n' hn' => visits n' (by simp [hn'])) apart overlay'
      new' (Nat.lt_of_lt_of_le hs extends'.size_le) ((extends'.root_eq s hs).trans hk) rest
    refine ⟨overlay''.congr fun m => ?_, extends'.trans extends''⟩
    simp [or_assoc]

/-- Entering a node does the node and what is done inside. -/
theorem Overlay.enter {done : NodeId → Prop} {f f' : ScopeForest} (h : Overlay t root done f)
    {kind : ScopeKind} {n : NodeId} {parent : Option ScopeId} {decls : List (Except BindError Decl)}
    {inside : ScopeId → Bind Unit} {part : NodeId → Prop} (kind_eq : kind = t.scopeKind n)
    (has : f.Has parent)
    (around : parent.map (fun p => (f.scope p).root) = (t.parent n).bind (t.opener? root))
    (names : declNames decls = t.declaredNames n)
    (inner : ∀ s, t.Lays root (inside s) s n part) (apart : ¬ part n)
    (new : ∀ m, m = n ∨ part m → ¬ done m) {s : ScopeId}
    (run : (Bind.enter kind n parent decls inside).Gives f s f') :
    Overlay t root (fun m => done m ∨ m = n ∨ part m) f' ∧ f.Extends f' ∧ f'.at? n = some s := by
  obtain ⟨r, g, opened, run⟩ := Bind.gives_bind.mp run
  obtain ⟨_, g', declared, run⟩ := Bind.gives_bind.mp run
  obtain ⟨_, g'', inner', run⟩ := Bind.gives_bind.mp run
  obtain ⟨rfl, rfl⟩ := Bind.gives_pure.mp run
  obtain ⟨rfl, rfl⟩ : f.scopes.size = r ∧ (f.openScope kind n parent).2 = g := by
    have same := Bind.gives_openScope.mp opened
    exact ⟨congrArg Prod.fst same, congrArg Prod.snd same⟩
  have step := names ▸ h.coherent.opened has declared
  have overlay := h.opening step (new n (.inl rfl)) kind_eq has around
  have last : f.scopes.size < g'.scopes.size := by
    rw [step.size]
    omega
  have root_eq : (g'.scope f.scopes.size).root = n := by rw [step.root_eq, if_pos rfl]
  have extended : f.Extends g' := by
    refine ⟨Nat.le_of_lt last, fun r hr => ?_⟩
    rw [step.root_eq, if_neg (Nat.ne_of_lt hr)]
  have new' : ∀ m, part m → ¬ (done m ∨ m = n) := by
    rintro m hm (old | rfl)
    · exact new m (.inr hm) old
    · exact apart hm
  obtain ⟨overlay', extended'⟩ := inner f.scopes.size overlay new' last root_eq inner'
  refine ⟨overlay'.congr fun m => or_assoc, extended.trans extended', ?_⟩
  exact (overlay'.at_iff n _).mpr
    ⟨Nat.lt_of_lt_of_le last extended'.size_le, (extended'.root_eq _ last).trans root_eq⟩

/-- Entering a node in the scope of the nearest node around. -/
theorem Lays.enter {kind : ScopeKind} {n k : NodeId} {s : ScopeId}
    {decls : List (Except BindError Decl)} {inside : ScopeId → Bind Unit} {part : NodeId → Prop}
    (kind_eq : kind = t.scopeKind n) (around : (t.parent n).bind (t.opener? root) = some k)
    (names : declNames decls = t.declaredNames n)
    (inner : ∀ s, t.Lays root (inside s) s n part) (apart : ¬ part n) :
    t.Lays root (do let _ ← Bind.enter kind n (some s) decls inside) s k
      (fun m => m = n ∨ part m) := by
  intro done f f' overlay new hs hk run
  obtain ⟨_, g, entered, last⟩ := Bind.gives_bind.mp run
  obtain ⟨_, rfl⟩ := Bind.gives_pure.mp last
  have has : f.Has (some s) := fun p hp => Option.some.inj hp ▸ hs
  obtain ⟨overlay', extended, _⟩ := overlay.enter kind_eq has
    (by rw [around, ← hk]; rfl) names inner apart new entered
  exact ⟨overlay', extended⟩

/-! ### Going through the program -/

/-- The nodes at and below `n` that have a scope. -/
def Openers (t : Tree) (root n m : NodeId) : Prop := t.opens root m = true ∧ n ∈ t.ancestors m

/-- The nodes below `n` that have a scope. -/
def InnerOpeners (t : Tree) (root n m : NodeId) : Prop := ∃ c ∈ t.children n, t.Openers root c m

theorem IsTree.openers_iff (h : t.IsTree) {n : NodeId} (opens : t.opens root n = true) (m : NodeId) :
    m = n ∨ t.InnerOpeners root n m ↔ t.Openers root n m := by
  unfold InnerOpeners Openers
  rw [h.mem_ancestors_iff_child]
  constructor
  · rintro (rfl | ⟨c, hc, opens, below⟩)
    · exact ⟨opens, .inl rfl⟩
    · exact ⟨opens, .inr ⟨c, hc, below⟩⟩
  · rintro ⟨opens, rfl | ⟨c, hc, below⟩⟩
    · exact .inl rfl
    · exact .inr ⟨c, hc, opens, below⟩

theorem IsTree.innerOpeners_iff (h : t.IsTree) {n : NodeId} (opens : t.opens root n ≠ true)
    (m : NodeId) : t.InnerOpeners root n m ↔ t.Openers root n m := by
  unfold InnerOpeners Openers
  rw [h.mem_ancestors_iff_child]
  constructor
  · intro ⟨c, hc, opens, below⟩
    exact ⟨opens, .inr ⟨c, hc, below⟩⟩
  · rintro ⟨opens', rfl | ⟨c, hc, below⟩⟩
    · exact absurd opens' opens
    · exact ⟨c, hc, opens', below⟩

theorem IsTree.not_innerOpeners_self (h : t.IsTree) (n : NodeId) : ¬ t.InnerOpeners root n n := by
  intro ⟨c, hc, _, above⟩
  exact h.not_mem_ancestors_of_child hc above

/-- Going through the children of a node does what is below it. -/
theorem IsTree.lays_children (h : t.IsTree) {visit : NodeId → ScopeId → Bind Unit} {n k : NodeId}
    {s : ScopeId} (visits : ∀ c ∈ t.children n, t.Lays root (visit c s) s k (t.Openers root c)) :
    t.Lays root (t.bindChildren visit n s) s k (t.InnerOpeners root n) := by
  refine Lays.each visits ((h.nodup n).imp_of_mem fun hc hc' other m below below' => ?_)
  exact other (h.child_unique hc hc' below.2 below'.2)

/-- A function is done with its body and what is below that. -/
theorem Overlay.bindFunction {done : NodeId → Prop} {f f' : ScopeForest}
    (h : Overlay t root done f) (tree : t.IsTree) {visit : NodeId → ScopeId → Bind Unit}
    {n name params body : NodeId} {parent : Option ScopeId}
    (parts : t.FunctionParts n name params body) (inside : root ∈ t.ancestors n)
    (has : f.Has parent)
    (around : parent.map (fun p => (f.scope p).root) = (t.parent n).bind (t.opener? root))
    (visits : ∀ c ∈ t.children body, ∀ s, t.Lays root (visit c s) s body (t.Openers root c))
    (new : ∀ m, t.Openers root n m → ¬ done m) {s : ScopeId}
    (run : (t.bindFunction visit n parent).Gives f s f') :
    Overlay t root (fun m => done m ∨ t.Openers root n m) f' ∧ f.Extends f' ∧ f'.at? n = some s := by
  have n_opens : t.opens root n = true := parts.opens_self inside
  have covered (m : NodeId) : m = n ∨ t.Openers root body m ↔ t.Openers root n m := by
    constructor
    · rintro (rfl | ⟨opens, below⟩)
      · exact ⟨n_opens, tree.mem_ancestors_self m⟩
      · exact ⟨opens, tree.mem_ancestors_iff_child.mpr (.inr ⟨body, parts.body_mem, below⟩)⟩
    · intro ⟨opens, below⟩
      by_cases same : m = n
      · exact .inl same
      · exact .inr ⟨opens, parts.body_above tree inside opens below same⟩
  have inner (s : ScopeId) : t.Lays root
      (do let _ ← Bind.enter .body body (some s) (t.bodyDecls body) (t.bindChildren visit body))
      s n (t.Openers root body) := by
    have body_kind : ScopeKind.body = t.scopeKind body := by
      simp [scopeKind, parts.body_block, parts.isFunctionBlock_body tree]
    have body_around : (t.parent body).bind (t.opener? root) = some n := by
      rw [parts.parent_body tree, Option.bind_some, tree.opener?_of_opens n_opens]
    have body_names : declNames (t.bodyDecls body) = t.declaredNames body := by
      rw [declNames_bodyDecls tree (.inl parts.body_block)]
      simp [declaredNames, parts.body_block, parts.isFunctionBlock_body tree]
    exact (Lays.enter body_kind body_around body_names
      (fun s => tree.lays_children fun c hc => visits c hc s)
      (tree.not_innerOpeners_self body)).congr (tree.openers_iff (parts.opens_body tree inside))
  have kind_eq : ScopeKind.function = t.scopeKind n := by
    simp [scopeKind, parts.function]
  have names : declNames (t.parameters params) = t.declaredNames n := by
    simp [declaredNames, parts.function, parts.params?, declNames_parameters]
  have apart : ¬ t.Openers root body n := fun below =>
    tree.not_mem_ancestors_of_child parts.body_mem below.2
  rw [Tree.bindFunction, parts.params?, parts.body?] at run
  obtain ⟨overlay, extended, found⟩ := h.enter kind_eq has around names inner apart
    (fun m hm => new m ((covered m).mp hm)) run
  exact ⟨overlay.congr fun m => or_congr_right (covered m), extended, found⟩

/-- A function in the scope of the nearest node around. -/
theorem IsTree.lays_function (h : t.IsTree) {visit : NodeId → ScopeId → Bind Unit}
    {n name params body k : NodeId} {s : ScopeId} (parts : t.FunctionParts n name params body)
    (inside : root ∈ t.ancestors n) (around : (t.parent n).bind (t.opener? root) = some k)
    (visits : ∀ c ∈ t.children body, ∀ s, t.Lays root (visit c s) s body (t.Openers root c)) :
    t.Lays root (do let _ ← t.bindFunction visit n (some s)) s k (t.Openers root n) := by
  intro done f f' overlay new hs root_eq run
  obtain ⟨_, g, bound, last⟩ := Bind.gives_bind.mp run
  obtain ⟨_, rfl⟩ := Bind.gives_pure.mp last
  have has : f.Has (some s) := fun p hp => Option.some.inj hp ▸ hs
  obtain ⟨overlay', extended, _⟩ := overlay.bindFunction h parts inside has
    (by rw [around, ← root_eq]; rfl) visits new bound
  exact ⟨overlay', extended⟩

/-- A construct other than a function that has a scope is done with what is below it. -/
theorem IsTree.lays_opener (h : t.IsTree) {visit : NodeId → ScopeId → Bind Unit} {n k : NodeId}
    {s : ScopeId} {decls : List (Except BindError Decl)} (opens : t.opens root n = true)
    (around : (t.parent n).bind (t.opener? root) = some k)
    (names : declNames decls = t.declaredNames n)
    (visits : ∀ c ∈ t.children n, ∀ s, t.Lays root (visit c s) s n (t.Openers root c)) :
    t.Lays root (do let _ ← Bind.enter (t.scopeKind n) n (some s) decls (t.bindChildren visit n))
      s k (t.Openers root n) :=
  (Lays.enter rfl around names (fun s => h.lays_children fun c hc => visits c hc s)
    (h.not_innerOpeners_self n)).congr (h.openers_iff opens)

/-- Below the root a construct that has no scope anywhere has none. -/
theorem IsTree.not_opens_of_not_opensScope (h : t.IsTree) {n p : NodeId}
    (hp : t.parent n = some p) (inside : root ∈ t.ancestors p)
    (closed : (t.kind n).opensScope = false) : t.opens root n ≠ true := by
  intro opens
  rcases (opens_iff.mp opens).2 with rfl | opening
  · exact h.not_mem_ancestors_of_child ((h.parent_iff p n).mp hp) inside
  · rw [closed] at opening
    cases opening

/-- Going on at a node of the program in the scope of the nearest node around does everything
at and below it. -/
theorem IsTree.lays_bind (h : t.IsTree) (plain : t.PlainFunctions) {n p k : NodeId}
    (hp : t.parent n = some p) (inside : root ∈ t.ancestors p) (ordinary : t.kind p ≠ .function)
    (nearest : t.opener? root p = some k) (s : ScopeId) :
    t.Lays root (t.bind n s) s k (t.Openers root n) := by
  induction n using h.acyclic.induct_below generalizing p k s with
  | _ n ih =>
    have around : (t.parent n).bind (t.opener? root) = some k := by rw [hp]; exact nearest
    have n_inside : root ∈ t.ancestors n := h.mem_ancestors_of_parent hp inside
    have visits (hf : t.kind n ≠ .function) {k : NodeId} (hk : t.opener? root n = some k) :
        ∀ c ∈ t.children n, ∀ s, t.Lays root (t.bind c s) s k (t.Openers root c) :=
      fun c hc s => ih c (.child hc) (h.parent_of_child hc) n_inside hf hk s
    rw [bind_eq h.acyclic]
    by_cases hf : t.kind n = .function
    · obtain ⟨name, params, body, parts⟩ := plain.parts hf
      rw [bindStep_of_function hf]
      refine h.lays_function parts n_inside around fun c hc s => ?_
      exact ih c (.deeper parts.body_mem (.child hc)) (h.parent_of_child hc)
        (parts.inside_body h n_inside) (by simp [parts.body_block])
        (h.opener?_of_opens (parts.opens_body h n_inside)) s
    · cases opening : (t.kind n).opensScope with
      | true =>
        have inner : t.isFunctionBlock n = false := isFunctionBlock_eq_false hp ordinary
        have opens : t.opens root n = true := opens_iff.mpr ⟨n_inside, .inr opening⟩
        rw [bindStep_of_opensScope hf opening inner]
        exact h.lays_opener opens around (declNames_scopeDecls h hf opening inner)
          (visits hf (h.opener?_of_opens opens))
      | false =>
        have closed : t.opens root n ≠ true := h.not_opens_of_not_opensScope hp inside opening
        have nearest' : t.opener? root n = some k := by rw [h.opener?_eq, if_neg closed, around]
        rw [bindStep_of_not_opensScope opening]
        exact (h.lays_children fun c hc => visits hf nearest' c hc s).congr
          (h.innerOpeners_iff closed)

/-- Scopes laid over a program mirror all of it. -/
theorem IsTree.overlay_bindProgram (h : t.IsTree) (plain : t.PlainFunctions) {s : ScopeId}
    {f : ScopeForest} (run : (t.bindProgram root).Gives {} s f) :
    Overlay t root (fun m => t.opens root m = true) f ∧ f.at? root = some s := by
  have start := Overlay.empty t root
  have has : ({} : ScopeForest).Has none := fun p hp => by cases hp
  have around : (none : Option ScopeId).map (fun p => (({} : ScopeForest).scope p).root) =
      (t.parent root).bind (t.opener? root) := (h.opener?_above_root root).symm
  have all (m : NodeId) : False ∨ t.Openers root root m ↔ t.opens root m = true := by
    simp only [false_or]
    exact ⟨fun opens => opens.1, fun opens => ⟨opens, (opens_iff.mp opens).1⟩⟩
  have here : root ∈ t.ancestors root := h.mem_ancestors_self root
  rw [bindProgram] at run
  split at run
  · next hk =>
    have visits (s : ScopeId) : t.Lays root (t.bindChildren t.bind root s) s root
        (t.InnerOpeners root root) := by
      exact h.lays_children fun c hc => h.lays_bind plain (h.parent_of_child hc) here
        (by simp [hk]) (h.opener?_of_opens (h.opens_root root)) s
    obtain ⟨overlay, _, found⟩ := start.enter (by simp [scopeKind, hk]) has around
      (by simp [declNames_bodyDecls h (.inr hk), declaredNames, hk]) visits
      (h.not_innerOpeners_self root) (fun _ _ => id) run
    refine ⟨overlay.congr fun m => ?_, found⟩
    rw [h.openers_iff (h.opens_root root)]
    exact all m
  · next hk =>
    obtain ⟨name, params, body, parts⟩ := plain.parts hk
    have visits : ∀ c ∈ t.children body, ∀ s,
        t.Lays root (t.bind c s) s body (t.Openers root c) := fun c hc s =>
      h.lays_bind plain (h.parent_of_child hc) (parts.inside_body h here)
        (by simp [parts.body_block]) (h.opener?_of_opens (parts.opens_body h here)) s
    obtain ⟨overlay, _, found⟩ := start.bindFunction h parts here has around visits
      (fun _ _ => id) run
    exact ⟨overlay.congr all, found⟩
  · exact absurd run Bind.not_gives_throw

end Tree
end Liveness
