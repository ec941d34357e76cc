import Liveness.Proofs.Live.Locals
import Liveness.Live.Escape

/-! Which variables escape, in terms of the text.

The computation asks three questions about a name in a function: whether another function is the
nearest one around it, which variable it means, and whose variable that is. Over a program that
mirrors its text each has an answer in the text. Another function is nearest if and only if the
name stands in a function nested in this one; the variable is that of the nearest construct that
declares the name; and it belongs to the function whose scopes hold the scope of that construct.
None of the searches fails, so what is found is everything there is to find. -/
namespace Liveness

namespace Escaped

theorem mem_insert {e : Escaped} {v w : VarId} : w ∈ (e.insert v).vars ↔ w ∈ e.vars ∨ w = v := by
  unfold insert contains
  split
  · next known =>
    have known := List.contains_iff_mem.mp known
    constructor
    · exact .inl
    · intro h
      rcases h with h | rfl
      · exact h
      · exact known
  · simp

theorem nodup_insert {e : Escaped} (once : e.vars.Nodup) (v : VarId) : (e.insert v).vars.Nodup := by
  unfold insert contains
  split
  · exact once
  · next new =>
    refine List.nodup_append.mpr ⟨once, by simp, ?_⟩
    intro w hw x hx same
    rw [List.mem_singleton] at hx
    exact new (List.contains_iff_mem.mpr (hx ▸ same ▸ hw))

theorem mem_insertAll {e : Escaped} {vs : List VarId} {w : VarId} :
    w ∈ (e.insertAll vs).vars ↔ w ∈ e.vars ∨ w ∈ vs := by
  unfold insertAll
  induction vs generalizing e with
  | nil => simp
  | cons v vs ih => rw [List.foldl_cons, ih, mem_insert, List.mem_cons, or_assoc]

theorem nodup_insertAll {e : Escaped} (once : e.vars.Nodup) (vs : List VarId) :
    (e.insertAll vs).vars.Nodup := by
  unfold insertAll
  induction vs generalizing e with
  | nil => exact once
  | cons v vs ih => exact ih (nodup_insert once v)

/-- What is inserted comes behind what was there, each variable once. -/
theorem vars_insertAll (e : Escaped) (vs : List VarId) :
    (e.insertAll vs).vars = e.vars ++ (vs.filter fun v => !e.contains v).eraseDups := by
  unfold insertAll
  induction vs generalizing e with
  | nil => simp
  | cons v vs ih =>
    rw [List.foldl_cons, ih]
    cases known : e.contains v with
    | true => rw [insert, if_pos known, List.filter_cons_of_neg (by simp [known])]
    | false =>
      have added : e.insert v = ⟨e.vars ++ [v]⟩ := if_neg (by simp [known])
      have others : (vs.filter fun w => !e.contains w).filter (fun w => !w == v) =
          vs.filter fun w => !(e.insert v).contains w := by
        rw [List.filter_filter]
        refine List.filter_congr fun w _ => ?_
        rw [added, contains, contains, List.contains_append, List.contains_cons, List.contains_nil,
          Bool.or_false, Bool.not_or, Bool.and_comm]
      rw [List.filter_cons_of_pos (by simp [known]), List.eraseDups_cons, others, added]
      simp

/-- Without a failure everything found is kept. -/
theorem beforeFailure_map_ok {ε : Type} (vs : List VarId) :
    beforeFailure (vs.map Except.ok : List (Except ε VarId)) = ofList vs := by
  have all : (vs.map Except.ok : List (Except ε VarId)).takeWhile (·.isOk) = vs.map Except.ok := by
    induction vs with
    | nil => rfl
    | cons v vs ih => exact congrArg (Except.ok v :: ·) ih
  rw [beforeFailure, all, List.filterMap_map]
  congr 1
  exact List.filterMap_some

end Escaped

theorem firstFailure?_map_ok {ε α : Type} (xs : List α) :
    firstFailure? (xs.map Except.ok : List (Except ε α)) = none := by
  rw [firstFailure?, List.findSome?_eq_none_iff]
  intro x hx
  obtain ⟨a, _, rfl⟩ := List.mem_map.mp hx
  rfl

namespace Tree
variable {t : Tree} {root : NodeId}

/-- What is in a function has another one nearest to it if and only if it is in a function
nested in that one. -/
theorem IsTree.enclosingFunction?_ne_iff (h : t.IsTree) {f n : NodeId} (hf : t.kind f = .function)
    (above : f ∈ t.ancestors n) :
    t.enclosingFunction? n ≠ some f ↔
      ∃ g, t.kind g = .function ∧ g ∈ t.ancestors n ∧ f ∈ t.ancestors g ∧ g ≠ f := by
  constructor
  · intro other
    obtain ⟨g, nearest, below⟩ := h.exists_nearest above (isFunction_iff.mpr hf)
    refine ⟨g, isFunction_iff.mp (List.find?_some nearest), List.mem_of_find?_eq_some nearest, below, ?_⟩
    intro same
    exact other (nearest.trans (congrArg some same))
  · intro ⟨g, hg, between, below, other⟩ nearest
    obtain ⟨m, found, lower⟩ := h.exists_nearest between (isFunction_iff.mpr hg)
    obtain rfl : m = f := Option.some.inj (found.symm.trans nearest)
    exact other (h.ancestors_antisymm lower below)

/-- The variable of a function that a nested function touches at a node, as the text has it. -/
def touched? (t : Tree) (root : NodeId) (f : ScopeForest) (function n : NodeId) : Option VarId :=
  if t.enclosingFunction? n = some function then none
  else if (t.parent n).any t.isFunction then none
  else do
    let name ← t.name? n
    let v ← t.meaning? root f n name
    if f.functionOf? v = some function then some v else none

theorem touched?_eq_some_iff {f : ScopeForest} {function n : NodeId} {v : VarId} :
    t.touched? root f function n = some v ↔
      t.enclosingFunction? n ≠ some function ∧ (∀ q, t.parent n = some q → t.kind q ≠ .function) ∧
        (∃ name, t.name? n = some name ∧ t.meaning? root f n name = some v) ∧
        f.functionOf? v = some function := by
  have apart : (t.parent n).any t.isFunction = true ↔
      ¬ ∀ q, t.parent n = some q → t.kind q ≠ .function := by
    cases t.parent n <;> simp [isFunction_iff]
  unfold touched?
  split
  · next here => simp [here]
  · next other =>
    split
    · next child => simp [apart.mp child]
    · next free =>
      have free := Decidable.not_not.mp (mt apart.mpr free)
      simp only [Option.bind_eq_bind, Option.bind_eq_some_iff]
      constructor
      · intro ⟨name, named, w, meaning, owned⟩
        split at owned
        · next own =>
          cases owned
          exact ⟨other, free, ⟨name, named, meaning⟩, own⟩
        · cases owned
      · intro ⟨_, _, ⟨name, named, meaning⟩, own⟩
        exact ⟨name, named, v, meaning, if_pos own⟩

namespace Mirrors
variable {f : ScopeForest} {p : Program}

/-- The searches for what is touched at a node succeed, with what the text says. -/
theorem captureAt_eq (h : p.tree.Mirrors root p.scopes) (tree : p.tree.IsTree)
    (function n : NodeId) :
    p.captureAt function n = .ok (p.tree.touched? root p.scopes function n) := by
  unfold Program.captureAt touched?
  cases named : p.tree.name? n with
  | none => simp
  | some name =>
    dsimp only
    split
    · rfl
    · split
      · rfl
      · cases closest : p.closestScope? n with
        | none =>
          have resolved := h.resolve?_eq tree name n
          rw [show (p.tree.ancestors n).findSome? p.scopes.at? = none from closest] at resolved
          rw [Option.bind_eq_bind, Option.bind_some, ← resolved]
          rfl
        | some s =>
          dsimp only
          rw [h.lookup_eq tree closest, Option.bind_eq_bind, Option.bind_some]
          cases meaning : p.tree.meaning? root p.scopes n name with
          | none => rfl
          | some v =>
            have owned : p.scopes.owner v = .ok (p.scopes.functionOf? v) :=
              h.coherent.settle_eq (h.coherent.scope_lt (h.meaning?_eq_some_iff.mp meaning).1) _
            show (p.scopes.owner v >>= fun g => _) = _
            rw [owned]
            rfl

theorem captures_eq (h : p.tree.Mirrors root p.scopes) (tree : p.tree.IsTree) (function : NodeId) :
    p.captures function =
      ((p.tree.preorder function).filterMap (p.tree.touched? root p.scopes function)).map .ok := by
  rw [Program.captures, List.map_filterMap]
  congr 1
  funext n
  rw [h.captureAt_eq tree]

/-- A variable belongs to a function if and only if the function's scope is the first on the way
outward. -/
theorem functionOf?_eq_some_iff (h : t.Mirrors root f) {n : NodeId} {fs v : Nat}
    (at_n : f.at? n = some fs) :
    f.functionOf? v = some n ↔ f.closestFunction? (f.var v).scope = some fs := by
  rw [ScopeForest.functionOf?, Option.map_eq_some_iff]
  constructor
  · intro ⟨r, first, same⟩
    have function : f.isFunctionScope r = true := List.find?_some first
    have lt : r < f.scopes.size := by
      rcases Nat.lt_or_ge r f.scopes.size with lt | le
      · exact lt
      · rw [ScopeForest.isFunctionScope, ScopeForest.scope_of_size_le le] at function
        cases function
    rw [first, h.eq_of_root_eq lt at_n same]
  · intro first
    exact ⟨fs, first, h.root_eq at_n⟩

/-- The variables of a function that nested functions touch are those whose names stand there
and mean them. -/
theorem exists_touched_iff (h : t.Mirrors root f) (tree : t.IsTree) {function : NodeId} {fs v : Nat}
    (kind : t.kind function = .function) (at_function : f.at? function = some fs) :
    (∃ n ∈ t.preorder function, t.touched? root f function n = some v) ↔
      v < f.vars.size ∧ f.closestFunction? (f.var v).scope = some fs ∧
        ∃ n, t.name? n = some (f.var v).name ∧
          (∃ g, t.kind g = .function ∧ g ∈ t.ancestors n ∧ function ∈ t.ancestors g ∧ g ≠ function) ∧
          (∀ q, t.parent n = some q → t.kind q ≠ .function) ∧
          ∃ m, t.declarer? root n (f.var v).name = some m ∧ f.at? m = some (f.var v).scope := by
  constructor
  · intro ⟨n, below, touched⟩
    obtain ⟨other, free, ⟨name, named, meaning⟩, owned⟩ := touched?_eq_some_iff.mp touched
    obtain ⟨lt, rfl, declared⟩ := h.meaning?_eq_some_iff.mp meaning
    have nested := (tree.enclosingFunction?_ne_iff kind (tree.mem_preorder_iff.mp below)).mp other
    exact ⟨lt, (h.functionOf?_eq_some_iff at_function).mp owned, n, named, nested, free, declared⟩
  · intro ⟨lt, first, n, named, nested, free, declared⟩
    have below : function ∈ t.ancestors n := by
      obtain ⟨g, _, between, above, _⟩ := nested
      exact tree.mem_ancestors_trans above between
    have other := (tree.enclosingFunction?_ne_iff kind below).mpr nested
    have meaning := h.meaning?_eq_some_iff.mpr ⟨lt, rfl, declared⟩
    exact ⟨n, tree.mem_preorder_iff.mpr below, touched?_eq_some_iff.mpr
      ⟨other, free, ⟨_, named, meaning⟩, (h.functionOf?_eq_some_iff at_function).mpr first⟩⟩

/-- What escapes is what nested functions touch and then what is exposed. -/
theorem escaped_eq (h : p.tree.Mirrors root p.scopes) (tree : p.tree.IsTree) {function : NodeId}
    {body : NodeId} {fs bs : Nat} (at_function : p.scopes.at? function = some fs)
    (at_body : p.scopes.at? body = some bs) (visible : Convention) :
    (p.escaped fs bs visible).result = .ok ((Escaped.ofList ((p.tree.preorder function).filterMap
      (p.tree.touched? root p.scopes function))).insertAll (p.exposed fs bs visible)) := by
  have there {n : NodeId} {s : Nat} (at_n : p.scopes.at? n = some s) :
      p.scopes.scope? s = some (p.scopes.scope s) := by
    have := h.lt_size at_n
    simp [ScopeForest.scope, ScopeForest.scope?, this]
  have existing : p.scopes.existing bs = .ok (p.scopes.scope bs) := by
    rw [ScopeForest.existing, there at_body]
  rw [Program.escaped, there at_function]
  dsimp only
  rw [h.root_eq at_function, h.captures_eq tree, Escaped.beforeFailure_map_ok,
    firstFailure?_map_ok, existing]
  rfl

end Mirrors
end Tree

namespace Program

/-- **What escapes is what is captured, caught or visible.** For every function of a program that
scopes have been laid over, the escaping variables can be told, no variable among them twice,
and they are the variables of the function that a catch clause binds, whose names are visible,
or whose name stands in a nested function, other than as a part of a function, where the nearest
construct that declares the name is the one that declares the variable. -/
theorem mem_escaped_iff (p p' : Program) (root : NodeId) (s : ScopeId) (tree : p.tree.IsTree)
    (plain : p.tree.PlainFunctions) (blank : p.scopes = {})
    (created : p.createScopes root = (.ok s, p')) (f : NodeId)
    (function : p.tree.kind f = .function) (inside : root ∈ p.tree.ancestors f) :
    ∃ fs bs, p'.functionScopes f = .ok (fs, bs) ∧ ∀ visible : Convention, ∃ e,
      (p'.escaped fs bs visible).result = .ok e ∧ e.vars.Nodup ∧
      ∀ v, v ∈ e.vars ↔ v < p'.scopes.vars.size ∧
        p'.scopes.functionScope (p'.scopes.var v).scope = .ok (some fs) ∧
        ((p'.scopes.var v).kind = .caught ∨ visible (p'.scopes.var v).name = true ∨
          ∃ n, p.tree.name? n = some (p'.scopes.var v).name ∧
            (∃ g, p.tree.kind g = .function ∧ g ∈ p.tree.ancestors n ∧ f ∈ p.tree.ancestors g ∧
              g ≠ f) ∧
            (∀ q, p.tree.parent n = some q → p.tree.kind q ≠ .function) ∧
            ∃ m, p.tree.declarer? root n (p'.scopes.var v).name = some m ∧
              p'.scopes.at? m = some (p'.scopes.var v).scope) := by
  obtain ⟨same, mirrors, _⟩ := mirrors_of_createScopes tree plain blank created
  rw [← same] at tree plain function inside mirrors ⊢
  obtain ⟨name, params, body, parts⟩ := plain.parts function
  obtain ⟨fs, at_f⟩ := (mirrors.opened f).mpr (parts.opens_self inside)
  obtain ⟨bs, at_body⟩ := (mirrors.opened body).mpr (parts.opens_body tree inside)
  have scopes : p'.functionScopes f = .ok (fs, bs) := by
    rw [functionScopes, at_f, parts.body?, Option.bind_some, at_body]
  refine ⟨fs, bs, scopes, fun visible => ⟨_, mirrors.escaped_eq tree at_f at_body visible, ?_, ?_⟩⟩
  · exact Escaped.nodup_insertAll (Escaped.nodup_insertAll List.nodup_nil _) _
  · intro v
    have owned (lt : v < p'.scopes.vars.size) :
        p'.scopes.functionScope (p'.scopes.var v).scope = .ok (some fs) ↔
          p'.scopes.closestFunction? (p'.scopes.var v).scope = some fs := by
      rw [ScopeForest.functionScope, mirrors.coherent.settle_eq (mirrors.coherent.scope_lt lt),
        Except.ok.injEq]
    have captured := mirrors.exists_touched_iff tree (v := v) function at_f
    have exposed : v ∈ p'.exposed fs bs visible ↔
        (v < p'.scopes.vars.size ∧ p'.scopes.closestFunction? (p'.scopes.var v).scope = some fs) ∧
          ((p'.scopes.var v).kind = .caught ∨ visible (p'.scopes.var v).name = true) := by
      rw [Program.exposed, List.mem_filter, mirrors.mem_localVars_iff tree parts inside at_f at_body]
      simp
    rw [Escaped.mem_insertAll, Escaped.ofList, Escaped.mem_insertAll, List.mem_filterMap, captured,
      exposed]
    constructor
    · intro found
      rcases found with (impossible | ⟨lt, first, capture⟩) | ⟨⟨lt, first⟩, reason⟩
      · cases impossible
      · exact ⟨lt, (owned lt).mpr first, .inr (.inr capture)⟩
      · exact ⟨lt, (owned lt).mpr first, reason.imp_right .inl⟩
    · intro ⟨lt, first, reason⟩
      have first := (owned lt).mp first
      rcases reason with caught | shown | capture
      · exact .inr ⟨⟨lt, first⟩, .inl caught⟩
      · exact .inr ⟨⟨lt, first⟩, .inr shown⟩
      · exact .inl (.inr ⟨lt, first, capture⟩)

/-- The inner function captures the variables of the loop and of its block, and what is caught
escapes without being named again. -/
theorem mem_escaped_iff_sheltered :
    shelteredScopes.functionScopes 25 = .ok (0, 1) ∧
      ∃ e, (shelteredScopes.escaped 0 1 Convention.nothing).result = .ok e ∧
        1 ∈ e.vars ∧ 2 ∈ e.vars ∧ 3 ∈ e.vars := by
  have scopes : shelteredScopes.functionScopes 25 = .ok (0, 1) := rfl
  obtain ⟨fs, bs, scopes', escapes⟩ := mem_escaped_iff sheltered shelteredScopes 25 0
    isTree_sheltered (by decide) rfl createScopes_sheltered 25 rfl (by decide)
  obtain ⟨rfl, rfl⟩ : 0 = fs ∧ 1 = bs := Prod.ext_iff.mp (Except.ok.inj (scopes.symm.trans scopes'))
  obtain ⟨e, result, _, member⟩ := escapes Convention.nothing
  refine ⟨scopes, e, result, ?_, ?_, ?_⟩
  · exact (member 1).mpr ⟨by decide, rfl, .inl rfl⟩
  · refine (member 2).mpr ⟨by decide, rfl, .inr (.inr ⟨13, rfl, ?_, ?_, 20, rfl, rfl⟩)⟩
    · exact ⟨18, rfl, by decide, by decide, by decide⟩
    · intro q hq
      cases hq
      decide
  · refine (member 3).mpr ⟨by decide, rfl, .inr (.inr ⟨15, rfl, ?_, ?_, 19, rfl, rfl⟩)⟩
    · exact ⟨18, rfl, by decide, by decide, by decide⟩
    · intro q hq
      cases hq
      decide

end Program
end Liveness
