import Liveness.Proofs.Scope.Overlay

/-! Which declarations a scope accepts.

A name that is declared again is held against the first declaration of it only, as the one whose
kind its variable has. Nothing is missed by that: as long as all declarations so far agree with each
other, either none of a name is lexical or there is only one. So names declared in a scope one after
the other are accepted if and only if every two of them agree, whatever their order
(`ScopeForest.Records.declareAll_iff`).

A scope receives its declarations right after it is opened, and later steps open scopes of their
own. Whether a step succeeds therefore does not depend on the forest it starts from
(`Bind.Accepts`). -/
namespace Liveness

/-- Two declarations can stand in one scope: they have different names, or neither is lexical. -/
def Decl.Agrees (d e : Decl) : Prop :=
  d.name = e.name → d.kind.isLexical = false ∧ e.kind.isLexical = false

/-- If all declarations agree, none of a name is lexical unless the first is. -/
theorem Decl.isLexical_eq_false {ds : List Decl} (agree : ds.Pairwise Decl.Agrees) {x : String}
    {first : Decl} (found : ds.find? (fun d => d.name == x) = some first)
    (plain : first.kind.isLexical = false) :
    ∀ e ∈ ds, e.name = x → e.kind.isLexical = false := by
  obtain ⟨named, before, after, rfl, others⟩ := List.find?_eq_some_iff_append.mp found
  obtain ⟨_, agree, _⟩ := List.pairwise_append.mp agree
  intro e he same
  rcases List.mem_append.mp he with he | he
  · exact absurd same (by simpa using others e he)
  · rcases List.mem_cons.mp he with rfl | he
    · exact plain
    · have named : first.name = e.name := (beq_iff_eq.mp named).trans same.symm
      exact (List.rel_of_pairwise_cons agree he named).2

/-- All declarations are there and agree with each other. -/
def Sound (decls : List (Except BindError Decl)) : Prop :=
  ∃ ds : List Decl, decls = ds.map .ok ∧ ds.Pairwise Decl.Agrees

theorem sound_map_ok {ds : List Decl} : Sound (ds.map .ok) ↔ ds.Pairwise Decl.Agrees := by
  constructor
  · rintro ⟨ds', same, agree⟩
    exact (List.map_inj_right fun _ _ => Except.ok.inj).mp same ▸ agree
  · exact fun agree => ⟨ds, rfl, agree⟩

theorem Sound.exists_ok {decls : List (Except BindError Decl)} (h : Sound decls) :
    ∀ x ∈ decls, ∃ d, x = .ok d := by
  obtain ⟨ds, rfl, _⟩ := h
  intro x hx
  obtain ⟨d, _, rfl⟩ := List.mem_map.mp hx
  exact ⟨d, rfl⟩

theorem Bind.gives_of_declare {s : ScopeId} {d : Decl} {v : VarId} {f f' : ScopeForest}
    (accepted : f.declare s d.name d.node d.kind = .ok (v, f')) : (declare s d).Gives f () f' := by
  unfold Gives declare
  rw [ExceptT.run_mk, accepted]

/-! ### One scope -/

namespace ScopeForest
variable {f f' : ScopeForest} {s : ScopeId} {done : List Decl}

/-- The table of a scope was made by the given declarations: a name has the kind that its first
declaration gave it. -/
structure Records (f : ScopeForest) (s : ScopeId) (done : List Decl) : Prop where
  lt_size : s < f.scopes.size
  known : ∀ x v, f.ownVar? s x = some v → v < f.vars.size
  kind_eq : ∀ x, (f.ownVar? s x).map (fun v => (f.var v).kind) =
    (done.find? fun d => d.name == x).map Decl.kind

namespace Records

/-- A new scope records nothing. -/
theorem openScope (f : ScopeForest) (kind : ScopeKind) (root : NodeId) (parent : Option ScopeId) :
    (f.openScope kind root parent).2.Records f.scopes.size [] := by
  have blank (x : String) : (f.openScope kind root parent).2.ownVar? f.scopes.size x = none := by
    cases parent with
    | none => simp [ownVar?, scope, scope?, ScopeForest.openScope, addScope, link]
    | some p =>
      simp only [ownVar?, scope, scope?, ScopeForest.openScope, addScope, link,
        Array.getElem?_modify, Array.getElem?_push, if_pos]
      split <;> rfl
  refine ⟨by rw [size_openScope]; exact Nat.lt_succ_self _, fun x v hv => ?_, fun x => ?_⟩
  · rw [blank] at hv
    cases hv
  · rw [blank]
    rfl

/-- A declaration is accepted if it agrees with all before it. -/
theorem declare_ok_iff (h : f.Records s done) (agree : done.Pairwise Decl.Agrees) (d : Decl) :
    (∃ v f', f.declare s d.name d.node d.kind = .ok (v, f')) ↔ ∀ e ∈ done, e.Agrees d := by
  have recorded := h.kind_eq d.name
  unfold ScopeForest.declare
  cases own : f.ownVar? s d.name with
  | none =>
    rw [own, Option.map_none, eq_comm, Option.map_eq_none_iff, List.find?_eq_none] at recorded
    refine iff_of_true ⟨_, _, rfl⟩ fun e he same => ?_
    exact absurd same (by simpa using recorded e he)
  | some w =>
    rw [own, Option.map_some, eq_comm, Option.map_eq_some_iff] at recorded
    obtain ⟨first, found, kind_eq⟩ := recorded
    have here : first ∈ done := List.mem_of_find?_eq_some found
    have named : first.name = d.name := by simpa using List.find?_some found
    dsimp only
    rw [← kind_eq]
    constructor
    · rintro ⟨v, f', accepted⟩
      split at accepted
      · cases accepted
      · next plain =>
        rw [Bool.or_eq_true, not_or, Bool.not_eq_true, Bool.not_eq_true] at plain
        intro e he same
        exact ⟨Decl.isLexical_eq_false agree found plain.2 e he same, plain.1⟩
    · intro all
      obtain ⟨old, new⟩ := all first here named
      exact ⟨w, f, if_neg (by simp [old, new])⟩

/-- A variable that is added stands for its name, unless an earlier one does. -/
theorem addVar (h : f.Records s done) (d : Decl) :
    (f.addVar s d.name d.node d.kind).2.Records s (done ++ [d]) := by
  have table (x : String) : (f.addVar s d.name d.node d.kind).2.ownVar? s x =
      (f.ownVar? s x).or (if x == d.name then some f.vars.size else none) := by
    rw [ownVar?, table_addVar h.lt_size, if_pos rfl, Table.find?_push]
    rfl
  refine ⟨by rw [size_addVar]; exact h.lt_size, fun x v hv => ?_, fun x => ?_⟩
  · have more : (f.addVar s d.name d.node d.kind).2.vars.size = f.vars.size + 1 := Array.size_push _
    rw [table] at hv
    rw [more]
    cases old : f.ownVar? s x with
    | some w =>
      rw [old, Option.some_or, Option.some.injEq] at hv
      exact Nat.lt_succ_of_lt (hv ▸ h.known x w old)
    | none =>
      rw [old, Option.none_or] at hv
      split at hv
      · exact Nat.lt_succ_of_le (Nat.le_of_eq (Option.some.inj hv).symm)
      · cases hv
  · have before := h.kind_eq x
    rw [table, List.find?_append]
    cases old : f.ownVar? s x with
    | some w =>
      rw [old, Option.map_some, eq_comm, Option.map_eq_some_iff] at before
      obtain ⟨first, found, kind_eq⟩ := before
      rw [found, Option.some_or, Option.some_or, Option.map_some, Option.map_some, kind_eq,
        var_addVar, if_neg (Nat.ne_of_lt (h.known x w old))]
    | none =>
      rw [old, Option.map_none, eq_comm, Option.map_eq_none_iff] at before
      rw [before, Option.none_or, Option.none_or]
      by_cases same : d.name = x
      · simp [same, var_addVar]
      · simp [same, Ne.symm same]

/-- An accepted declaration is recorded behind the others. -/
theorem declare (h : f.Records s done) {d : Decl} {v : VarId}
    (accepted : f.declare s d.name d.node d.kind = .ok (v, f')) : f'.Records s (done ++ [d]) := by
  unfold ScopeForest.declare at accepted
  cases own : f.ownVar? s d.name with
  | some w =>
    have recorded := h.kind_eq d.name
    rw [own] at accepted recorded
    dsimp only at accepted
    split at accepted
    · cases accepted
    · cases accepted
      refine ⟨h.lt_size, h.known, fun x => ?_⟩
      rw [h.kind_eq, List.find?_append]
      by_cases same : d.name = x
      · subst same
        cases found : done.find? (fun e => e.name == d.name) with
        | none =>
          rw [found] at recorded
          cases recorded
        | some first => rfl
      · simp [same]
  | none =>
    rw [own] at accepted
    obtain rfl : (f.addVar s d.name d.node d.kind).2 = f' :=
      congrArg Prod.snd (Except.ok.inj accepted)
    exact h.addVar d

/-- Declarations are accepted one after the other if all of them, with those before, agree. -/
theorem declareAll_iff (h : f.Records s done) (agree : done.Pairwise Decl.Agrees)
    (decls : List (Except BindError Decl)) :
    (∃ f', (Bind.declareAll s decls).Gives f () f') ↔
      ∃ ds : List Decl, decls = ds.map .ok ∧ (done ++ ds).Pairwise Decl.Agrees := by
  induction decls generalizing f done with
  | nil => exact iff_of_true ⟨f, rfl⟩ ⟨[], rfl, by rwa [List.append_nil]⟩
  | cons decl decls ih =>
    cases decl with
    | error e =>
      refine iff_of_false ?_ ?_
      · rintro ⟨_, run⟩
        exact Bind.not_gives_throw run
      · rintro ⟨ds, same, _⟩
        cases ds <;> cases same
    | ok d =>
      constructor
      · rintro ⟨f', run⟩
        obtain ⟨_, g, first, rest⟩ := Bind.gives_bind.mp run
        obtain ⟨v, accepted⟩ := Bind.gives_declare first
        have agree' : (done ++ [d]).Pairwise Decl.Agrees := by
          refine List.pairwise_append.mpr ⟨agree, List.pairwise_singleton _ d, fun e he e' he' => ?_⟩
          exact List.mem_singleton.mp he' ▸ (h.declare_ok_iff agree d).mp ⟨v, g, accepted⟩ e he
        obtain ⟨ds, rfl, agree'⟩ := (ih (h.declare accepted) agree').mp ⟨f', rest⟩
        exact ⟨d :: ds, rfl, by simpa using agree'⟩
      · rintro ⟨ds, same, agree'⟩
        cases ds with
        | nil => cases same
        | cons d' ds =>
          obtain ⟨rfl, rfl⟩ : d = d' ∧ decls = ds.map .ok := by simpa using same
          have earlier : ∀ e ∈ done, e.Agrees d := fun e he =>
            (List.pairwise_append.mp agree').2.2 e he d List.mem_cons_self
          obtain ⟨v, g, accepted⟩ := (h.declare_ok_iff agree d).mpr earlier
          have first : (Bind.declare s d).Gives f () g := Bind.gives_of_declare accepted
          rw [List.append_cons] at agree'
          have agree'' := (List.pairwise_append.mp agree').1
          obtain ⟨f', rest⟩ := (ih (h.declare accepted) agree'').mpr ⟨ds, rfl, agree'⟩
          exact ⟨f', Bind.gives_bind.mpr ⟨(), g, first, rest⟩⟩

end Records
end ScopeForest

/-! ### Steps -/

namespace Bind

/-- From any forest, a step succeeds if and only if `P` holds. -/
def Accepts (m : Bind α) (P : Prop) : Prop := ∀ f, (∃ a f', m.Gives f a f') ↔ P

theorem Accepts.congr {m : Bind α} {P Q : Prop} (h : m.Accepts P) (same : P ↔ Q) : m.Accepts Q :=
  fun f => (h f).trans same

theorem accepts_pure (a : α) : (pure a : Bind α).Accepts True :=
  fun f => iff_true_intro ⟨a, f, rfl⟩

theorem accepts_throw (e : BindError) : (throw e : Bind α).Accepts False := by
  refine fun f => iff_false_intro ?_
  rintro ⟨_, _, run⟩
  exact not_gives_throw run

theorem Accepts.bind {m : Bind α} {k : α → Bind β} {P Q : Prop} (first : m.Accepts P)
    (second : ∀ a, (k a).Accepts Q) : (m >>= k).Accepts (P ∧ Q) := by
  intro f
  constructor
  · rintro ⟨b, f', run⟩
    obtain ⟨a, g, run, run'⟩ := gives_bind.mp run
    exact ⟨(first f).mp ⟨a, g, run⟩, (second a g).mp ⟨b, f', run'⟩⟩
  · rintro ⟨hP, hQ⟩
    obtain ⟨a, g, run⟩ := (first f).mpr hP
    obtain ⟨b, f', run'⟩ := (second a g).mpr hQ
    exact ⟨b, f', gives_bind.mpr ⟨a, g, run, run'⟩⟩

/-- A step whose result is not used. -/
theorem Accepts.discard {m : Bind α} {P : Prop} (h : m.Accepts P) :
    (do let _ ← m : Bind Unit).Accepts P :=
  (h.bind fun _ => accepts_pure ()).congr (and_iff_left trivial)

/-- Going through nodes succeeds if it does for each of them. -/
theorem accepts_each {visit : NodeId → ScopeId → Bind Unit} {s : ScopeId} {P : NodeId → Prop}
    {ns : List NodeId} (visits : ∀ n ∈ ns, (visit n s).Accepts (P n)) :
    (each visit s ns).Accepts (∀ n ∈ ns, P n) := by
  induction ns with
  | nil => exact (accepts_pure ()).congr (by simp)
  | cons n ns ih =>
    refine ((visits n List.mem_cons_self).bind fun _ =>
      ih fun m hm => visits m (List.mem_cons_of_mem n hm)).congr ?_
    rw [List.forall_mem_cons]

/-- Entering a node succeeds if its declarations are sound and what is inside succeeds. -/
theorem accepts_enter {kind : ScopeKind} {root : NodeId} {parent : Option ScopeId}
    {decls : List (Except BindError Decl)} {inside : ScopeId → Bind Unit} {P : Prop}
    (inner : ∀ s, (inside s).Accepts P) :
    (enter kind root parent decls inside).Accepts (Sound decls ∧ P) := by
  intro f
  have declared := (ScopeForest.Records.openScope f kind root parent).declareAll_iff .nil decls
  constructor
  · rintro ⟨s, f', run⟩
    obtain ⟨r, g, opened, run⟩ := gives_bind.mp run
    obtain ⟨_, g', run, run'⟩ := gives_bind.mp run
    obtain ⟨_, g'', run', _⟩ := gives_bind.mp run'
    obtain ⟨same, rfl⟩ := Prod.ext_iff.mp (gives_openScope.mp opened)
    obtain rfl : f.scopes.size = r := same
    exact ⟨declared.mp ⟨g', run⟩, (inner _ g').mp ⟨_, g'', run'⟩⟩
  · rintro ⟨sound, hP⟩
    obtain ⟨g', run⟩ := declared.mpr sound
    obtain ⟨_, g'', run'⟩ := (inner f.scopes.size g').mpr hP
    exact ⟨f.scopes.size, g'', gives_bind.mpr ⟨_, _, gives_openScope.mpr rfl,
      gives_bind.mpr ⟨(), g', run, gives_bind.mpr ⟨_, g'', run', rfl⟩⟩⟩⟩

end Bind
end Liveness
