import Mathlib.Control.Monad.Basic
import Liveness.Proofs.Live.Locals
import Liveness.Proofs.Scope.Preorder

/-! The numbers of a function's variables.

Every live set is read through this numbering. Variables are entered under their names one after
the other, and a name that is there keeps its number and its variable. So the table of a scope is
what entering the scope's own variables gives (`Coherent.enter_varsOf`), a name leads to the first
variable entered under it (`find?_enter`), and what was entered first stays first
(`entries_enter`).

The variables come from the function's scopes in turn. These are the scopes whose first function
on the way outward is this one, in the pre-order of the tree of scopes
(`Tree.Mirrors.localScopes_eq`). -/
namespace Liveness

namespace ScopeForest
variable {f : ScopeForest}

/-! ### Entering variables -/

/-- Enters variables into a table under their names, unless these are taken. -/
def enter (f : ScopeForest) (t : VariableIndex) (vs : List VarId) : VariableIndex :=
  vs.foldl (fun t v => t.insertNew (f.var v).name v) t

theorem localIndex_eq (f : ScopeForest) (fs bs : ScopeId) :
    f.localIndex fs bs = f.enter .empty (f.localVars fs bs) := rfl

theorem enter_append (t : VariableIndex) (vs ws : List VarId) :
    f.enter t (vs ++ ws) = f.enter (f.enter t vs) ws :=
  List.foldl_append

theorem find?_enter (t : VariableIndex) (vs : List VarId) (x : String) :
    (f.enter t vs).find? x = (t.find? x).or (vs.find? fun v => x == (f.var v).name) := by
  induction vs generalizing t with
  | nil => simp [enter]
  | cons v vs ih =>
    show (f.enter (t.insertNew (f.var v).name v) vs).find? x = _
    rw [ih, Table.find?_insertNew, Option.or_assoc, List.find?_cons]
    cases x == (f.var v).name <;> simp

theorem entries_enter (t : VariableIndex) (vs : List VarId) :
    t.entries <+: (f.enter t vs).entries := by
  induction vs generalizing t with
  | nil => exact List.prefix_refl _
  | cons v vs ih => exact (t.entries_insertNew _ v).trans (ih _)

theorem nodup_keys_enter {t : VariableIndex} (once : t.keys.Nodup) (vs : List VarId) :
    (f.enter t vs).keys.Nodup := by
  induction vs generalizing t with
  | nil => exact once
  | cons v vs ih => exact ih (Table.nodup_keys_insertNew once)

/-- Under names that are not taken all variables are entered. -/
theorem entries_enter_of_nodup (t : VariableIndex) (vs : List VarId)
    (once : (t.keys ++ vs.map fun v => (f.var v).name).Nodup) :
    (f.enter t vs).entries = t.entries ++ vs.map fun v => ((f.var v).name, v) := by
  induction vs generalizing t with
  | nil => simp [enter]
  | cons v vs ih =>
    have new : t.contains (f.var v).name = false := by
      have absent : (f.var v).name ∉ t.keys := by
        intro taken
        exact (List.nodup_append.mp once).2.2 _ taken _ List.mem_cons_self rfl
      rw [Table.contains, Table.find?_eq_none_iff.mpr absent]
      rfl
    have pushed : t.insertNew (f.var v).name v = t.push (f.var v).name v := by
      rw [Table.insertNew, new]
      rfl
    show (f.enter (t.insertNew (f.var v).name v) vs).entries = _
    rw [pushed, ih]
    · simp
    · simpa [Table.keys_push] using once

namespace Coherent

theorem map_varsOf (h : f.Coherent) (s : Nat) :
    ((f.varsOf s).map fun v => ((f.var v).name, v)) = (f.scope s).vars.entries := by
  have named : ∀ e ∈ (f.scope s).vars.entries, ((f.var e.2).name, e.2) = e := fun e he =>
    Prod.ext ((h.mem_table s e.1 e.2).mp he).2.2 rfl
  rw [varsOf, Table.values, List.map_map]
  exact (List.map_congr_left named).trans (List.map_id _)

/-- The table of a scope is what entering its own variables gives. -/
theorem enter_varsOf (h : f.Coherent) (s : Nat) :
    f.enter .empty (f.varsOf s) = (f.scope s).vars := by
  have names : ((f.varsOf s).map fun v => (f.var v).name) = (f.scope s).vars.keys := by
    rw [Table.keys, ← h.map_varsOf, List.map_map]
    rfl
  have entries := entries_enter_of_nodup (f := f) .empty (f.varsOf s) (by
    rw [names]
    exact h.once s)
  rw [h.map_varsOf] at entries
  exact congrArg Table.mk entries

/-- A name leads to the variable of the first of the function's scopes that has one for it. -/
theorem find?_localIndex (h : f.Coherent) (fs bs : Nat) (x : String) :
    (f.localIndex fs bs).find? x = (f.localScopes fs bs).findSome? (f.ownVar? · x) := by
  rw [localIndex_eq, find?_enter, Table.find?_empty, Option.none_or, localVars, List.find?_flatMap]
  congr 1
  funext s
  rw [ownVar?, ← h.enter_varsOf s, find?_enter, Table.find?_empty, Option.none_or]

theorem contains_localIndex_iff (h : f.Coherent) (fs bs : Nat) (x : String) :
    (f.localIndex fs bs).contains x = true ↔
      ∃ v < f.vars.size, (f.var v).name = x ∧ (f.var v).scope ∈ f.localScopes fs bs := by
  rw [Table.contains, h.find?_localIndex, List.findSome?_isSome_iff]
  constructor
  · rintro ⟨s, hs, some⟩
    obtain ⟨v, own⟩ := Option.isSome_iff_exists.mp some
    obtain ⟨lt, rfl, named⟩ := h.ownVar?_eq_some_iff.mp own
    exact ⟨v, lt, named, hs⟩
  · rintro ⟨v, lt, named, hs⟩
    refine ⟨_, hs, ?_⟩
    rw [h.ownVar?_eq_some_iff.mpr ⟨lt, rfl, named⟩]
    rfl

/-- The variables of the parameters' scope come first. -/
theorem entries_localIndex (h : f.Coherent) (fs bs : Nat) :
    (f.scope fs).vars.entries <+: (f.localIndex fs bs).entries := by
  have first : f.localVars fs bs = f.varsOf fs ++ (f.within bs).flatMap f.varsOf := rfl
  rw [localIndex_eq, first, enter_append, h.enter_varsOf]
  exact entries_enter _ _

end Coherent

theorem nodup_keys_localIndex (f : ScopeForest) (fs bs : ScopeId) :
    (f.localIndex fs bs).keys.Nodup :=
  nodup_keys_enter (t := .empty) List.nodup_nil _

/-- A table numbers the variables of some scopes by name: it has the names that they have variables
for, each with the first such variable, and every number below its size leads to a name that leads
back. -/
structure Numbers (f : ScopeForest) (scopes : List ScopeId) (index : VariableIndex) : Prop where
  contains_iff : ∀ x, index.contains x = true ↔
    ∃ v < f.vars.size, (f.var v).name = x ∧ (f.var v).scope ∈ scopes
  find?_eq : ∀ x, index.find? x = scopes.findSome? (f.ownVar? · x)
  dense : ∀ i < index.size, ∃ x v,
    index.entry? i = some (x, v) ∧ index.idxOf? x = some i ∧ index.find? x = some v
  beyond : ∀ i, index.size ≤ i → index.entry? i = none

theorem Coherent.numbers_localIndex (h : f.Coherent) (fs bs : Nat) :
    f.Numbers (f.localScopes fs bs) (f.localIndex fs bs) where
  contains_iff := h.contains_localIndex_iff fs bs
  find?_eq := h.find?_localIndex fs bs
  dense i hi := by
    have once := f.nodup_keys_localIndex fs bs
    have entry : Table.entry? (f.localIndex fs bs) i = some (f.localIndex fs bs).entries[i] :=
      List.getElem?_eq_getElem hi
    exact ⟨_, _, entry, Table.idxOf?_of_entry? once entry,
      (Table.find?_eq_some_iff once).mpr (List.getElem_mem hi)⟩
  beyond _ hi := List.getElem?_eq_none hi

end ScopeForest

/-! ### The scopes of a function in the tree of scopes -/

namespace Tree.Mirrors
variable {t : Tree} {root : NodeId} {f : ScopeForest} {n name params body : NodeId} {s fs bs : Nat}

/-- All ways outward end at the program's own scope. -/
theorem mem_chain_iff (h : t.Mirrors root f) (tree : t.IsTree) (at_root : f.at? root = some s)
    {r : Nat} : s ∈ f.chain r ↔ r < f.scopes.size := by
  have out := h.coherent.outward
  constructor
  · intro passes
    rcases out.mem_chain_iff.mp passes with rfl | ⟨p, hp, _⟩
    · exact h.lt_size at_root
    · exact ScopeForest.lt_size_of_parent hp
  · intro hr
    induction r using Nat.strongRecOn with
    | _ r ih =>
      have at_r := h.at_root hr
      cases hp : (f.scope r).parent with
      | some p =>
        have lt := out r p hp
        exact out.mem_chain_iff.mpr (.inr ⟨p, hp, ih p lt (Nat.lt_trans lt hr)⟩)
      | none =>
        rcases tree.mem_ancestors_iff.mp (h.inside at_r) with here | ⟨q, hq, inside⟩
        · rw [← here, at_root] at at_r
          exact out.mem_chain_iff.mpr (.inl (Option.some.inj at_r))
        · obtain ⟨p, around⟩ := h.exists_scope tree inside
          rw [h.parent_eq tree at_r, hq, Option.bind_some, around] at hp
          cases hp

/-- The scope of the body is the only one directly in that of the parameters. -/
theorem children_eq (h : t.Mirrors root f) (arena : f.Arena) (tree : t.IsTree)
    (parts : t.FunctionParts n name params body) (inside : root ∈ t.ancestors n)
    (at_n : f.at? n = some fs) (at_body : f.at? body = some bs) : (f.scope fs).children = [bs] := by
  apply List.perm_singleton.mp
  rw [List.perm_ext_iff_of_nodup (arena.children_nodup fs) (by simp)]
  intro c
  rw [h.coherent.mem_children, List.mem_singleton]
  constructor
  · rintro ⟨_, around⟩
    exact h.eq_body tree parts inside at_n at_body around
  · rintro rfl
    exact ⟨h.lt_size at_body, h.parent_body tree parts at_n at_body⟩

/-- Among the scopes inside a function's, those of the function itself are those from which it is
the first on the way outward. -/
theorem filter_inside (h : t.Mirrors root f) (arena : f.Arena) (tree : t.IsTree)
    (parts : t.FunctionParts n name params body) (inside : root ∈ t.ancestors n)
    (at_n : f.at? n = some fs) (at_body : f.at? body = some bs) {inner : List ScopeId}
    (below : f.Preorder (f.scope fs).children inner) :
    (fs :: inner).filter (f.closestFunction? · = some fs) = f.localScopes fs bs := by
  have first (r : Nat) := h.mem_localScopes_iff tree parts inside at_n at_body r
  have children := h.children_eq arena tree parts inside at_n at_body
  have directly : ∀ r ∈ (f.scope fs).children,
      fs < r ∧ (f.isFunctionScope r = false → f.closestFunction? r = some fs) := by
    intro r hr
    refine ⟨(h.coherent.inward fs r hr).1, fun _ => ?_⟩
    rw [children, List.mem_singleton] at hr
    rw [hr, ← first, ScopeForest.localScopes]
    exact List.mem_cons_of_mem fs (h.coherent.mem_within_iff.mpr (.inl rfl))
  rw [List.filter_cons_of_pos (by simpa using (first fs).mp List.mem_cons_self),
    h.coherent.filter_preorder below directly, children]
  simp [h.isFunctionScope_body parts at_body, ScopeForest.localScopes]

/-- The scopes of a function are those from which it is the first on the way outward, in the order
of the tree of scopes. -/
theorem localScopes_eq (h : t.Mirrors root f) (arena : f.Arena) (tree : t.IsTree)
    (parts : t.FunctionParts n name params body) (inside : root ∈ t.ancestors n)
    (at_root : f.at? root = some s) (at_n : f.at? n = some fs) (at_body : f.at? body = some bs)
    {order : List ScopeId} (pre : f.Preorder [s] order) (once : order.Nodup) :
    f.localScopes fs bs = order.filter (f.closestFunction? · = some fs) := by
  have listed : fs ∈ order :=
    (pre.mem_iff h.coherent).mpr
      ⟨s, List.mem_singleton_self s, (h.mem_chain_iff tree at_root).mpr (h.lt_size at_n)⟩
  obtain ⟨inner, below, part⟩ := pre.exists_part listed
  have own := h.filter_inside arena tree parts inside at_n at_body below
  rw [filter_eq_of_part part once, own]
  intro r _ found
  have member : r ∈ f.localScopes fs bs :=
    (h.mem_localScopes_iff tree parts inside at_n at_body r).mpr (by simpa using found)
  rw [← own] at member
  exact (List.mem_filter.mp member).1

/-- The first numbers are those of the parameters. -/
theorem entry?_localIndex (h : t.Mirrors root f) (parts : t.FunctionParts n name params body)
    (at_n : f.at? n = some fs) (bs : Nat) {i : Nat} {x : String}
    (hx : (t.namesIn params).eraseDups[i]? = some x) :
    ∃ v, Table.entry? (f.localIndex fs bs) i = some (x, v) ∧ f.ownVar? fs x = some v := by
  have keys : (f.scope fs).vars.keys = (t.namesIn params).eraseDups := by
    rw [h.names fs (h.lt_size at_n), h.root_eq at_n, declaredNames, parts.function]
    simp [parts.params?]
  rw [← keys, Table.keys, List.getElem?_map] at hx
  obtain ⟨⟨_, v⟩, entry, rfl⟩ := Option.map_eq_some_iff.mp hx
  refine ⟨v, ?_, ?_⟩
  · obtain ⟨rest, entries⟩ := h.coherent.entries_localIndex fs bs
    unfold Table.entry?
    rw [← entries]
    exact List.getElem?_append_left (List.getElem?_eq_some_iff.mp entry).1 ▸ entry
  · exact (Table.find?_eq_some_iff (h.coherent.once fs)).mpr (List.mem_of_getElem? entry)

end Tree.Mirrors

namespace Program

/-- Scopes laid over a program without any are listed once and in order. -/
theorem arena_of_createScopes {p p' : Program} {root : NodeId} {s : ScopeId} (blank : p.scopes = {})
    (created : p.createScopes root = (.ok s, p')) : p'.scopes.Arena := by
  have grown : { p with scopes := (p.scopes.create p.tree root).2 } = p' :=
    congrArg Prod.snd created
  rw [← grown, blank]
  exact ScopeForest.Arena.empty.grown (ScopeForest.grown_create {} p.tree root)

/-- **Variables are numbered without gaps.** For every function of a program with scopes, the
scopes that its variables are taken from are, each once, those from which the function is the first
on the way outward, in the pre-order of the tree of scopes and beginning with the function's own.
The numbering has the names that these scopes have variables for, each with the first such
variable. Numbers below its size lead to a name that leads back, others to nothing, and the
parameters come first, in the order of the text. -/
theorem variables_numbered (p p' : Program) (root : NodeId) (s : ScopeId) (tree : p.tree.IsTree)
    (plain : p.tree.PlainFunctions) (blank : p.scopes = {})
    (created : p.createScopes root = (.ok s, p')) (f : NodeId)
    (function : p.tree.kind f = .function) (inside : root ∈ p.tree.ancestors f) :
    ∃ fs bs params, p'.functionScopes f = .ok (fs, bs) ∧ p.tree.functionParams? f = some params ∧
      (p'.scopes.localScopes fs bs).Nodup ∧ (p'.scopes.localScopes fs bs).head? = some fs ∧
      (∀ r, r ∈ p'.scopes.localScopes fs bs ↔ p'.scopes.functionScope r = .ok (some fs)) ∧
      (∃ order, p'.scopes.Preorder [s] order ∧ (∀ r, r ∈ order ↔ r < p'.scopes.scopes.size) ∧
        p'.scopes.localScopes fs bs =
          order.filter (p'.scopes.closestFunction? · = some fs)) ∧
      p'.scopes.Numbers (p'.scopes.localScopes fs bs) (p'.scopes.localIndex fs bs) ∧
      ∀ i x, (p.tree.namesIn params).eraseDups[i]? = some x →
        ∃ v, Table.entry? (p'.scopes.localIndex fs bs) i = some (x, v) ∧
          p'.scopes.ownVar? fs x = some v := by
  obtain ⟨same, mirrors, at_root⟩ := mirrors_of_createScopes tree plain blank created
  have arena := arena_of_createScopes blank created
  obtain ⟨name, params, body, parts⟩ := plain.parts function
  obtain ⟨fs, at_f⟩ := (mirrors.opened f).mpr (parts.opens_self inside)
  obtain ⟨bs, at_body⟩ := (mirrors.opened body).mpr (parts.opens_body tree inside)
  obtain ⟨order, pre⟩ := mirrors.coherent.inward.exists_preorder [s]
  have once : order.Nodup := pre.nodup arena (List.pairwise_singleton _ s)
  have scopes := mirrors.localScopes_eq arena tree parts inside at_root at_f at_body pre once
  refine ⟨fs, bs, params, ?_, parts.params?, ?_, rfl, ?_, ⟨order, pre, ?_, scopes⟩,
    mirrors.coherent.numbers_localIndex fs bs, fun i x => mirrors.entry?_localIndex parts at_f bs⟩
  · rw [functionScopes, at_f, same, parts.body?, Option.bind_some, at_body]
  · rw [scopes]
    exact once.filter _
  · intro r
    rw [mirrors.mem_localScopes_iff tree parts inside at_f at_body, ScopeForest.functionScope,
      ScopeForest.settle_eq_some_iff]
  · intro r
    rw [pre.mem_iff mirrors.coherent, ← mirrors.mem_chain_iff tree at_root]
    simp

/-- A function with two parameters, two blocks and between them a function of its own. The blocks
declare `d` twice, and the first declares a parameter's name again. -/
def layered : Program where
  tree := ⟨#[{ kind := .name "f", parent := some 20 }, { kind := .name "a", parent := some 3 },
    { kind := .name "b", parent := some 3 },
    { kind := .paramList, children := [1, 2], parent := some 20 },
    { kind := .name "c", parent := some 5 },
    { kind := .varDecl, children := [4], parent := some 19 },
    { kind := .name "a", parent := some 7 },
    { kind := .letDecl, children := [6], parent := some 10 },
    { kind := .name "d", parent := some 9 },
    { kind := .letDecl, children := [8], parent := some 10 },
    { kind := .block, children := [7, 9], parent := some 19 },
    { kind := .name "g", parent := some 15 }, { kind := .name "e", parent := some 13 },
    { kind := .paramList, children := [12], parent := some 15 },
    { kind := .block, parent := some 15 },
    { kind := .function, children := [11, 13, 14], parent := some 19 },
    { kind := .name "d", parent := some 17 },
    { kind := .letDecl, children := [16], parent := some 18 },
    { kind := .block, children := [17], parent := some 19 },
    { kind := .block, children := [5, 10, 15, 18], parent := some 20 },
    { kind := .function, children := [0, 3, 19], parent := some 21 },
    { kind := .script, children := [20] }]⟩

/-- The same script with its scopes. -/
def layeredScopes : Program where
  tree := layered.tree
  scopes :=
    { scopes := #[{ kind := .global, root := 21, children := [1], vars := ⟨[("f", 0)]⟩ },
        { kind := .function, root := 20, parent := some 0, children := [2],
          vars := ⟨[("a", 1), ("b", 2)]⟩ },
        { kind := .body, root := 19, parent := some 1, children := [3, 4, 6],
          vars := ⟨[("c", 3), ("g", 4)]⟩ },
        { kind := .block, root := 10, parent := some 2, vars := ⟨[("a", 5), ("d", 6)]⟩ },
        { kind := .function, root := 15, parent := some 2, children := [5], vars := ⟨[("e", 7)]⟩ },
        { kind := .body, root := 14, parent := some 4 },
        { kind := .block, root := 18, parent := some 2, vars := ⟨[("d", 8)]⟩ }]
      vars := #[{ name := "f", scope := 0, node := 0, kind := .function },
        { name := "a", scope := 1, node := 1, kind := .param },
        { name := "b", scope := 1, node := 2, kind := .param },
        { name := "c", scope := 2, node := 4, kind := .plain },
        { name := "g", scope := 2, node := 11, kind := .function },
        { name := "a", scope := 3, node := 6, kind := .mutable },
        { name := "d", scope := 3, node := 8, kind := .mutable },
        { name := "e", scope := 4, node := 12, kind := .param },
        { name := "d", scope := 6, node := 16, kind := .mutable }]
      roots := ⟨[(21, 0), (20, 1), (19, 2), (10, 3), (15, 4), (14, 5), (18, 6)]⟩ }

theorem variables_numbered_layered :
    layered.createScopes 21 = (.ok 0, layeredScopes) ∧
    layeredScopes.functionScopes 20 = .ok (1, 2) ∧
    (∃ order, layeredScopes.scopes.Preorder [0] order ∧
      [1, 2, 3, 6] = order.filter (layeredScopes.scopes.closestFunction? · = some 1)) ∧
    layeredScopes.scopes.Numbers [1, 2, 3, 6]
      ⟨[("a", 1), ("b", 2), ("c", 3), ("g", 4), ("d", 6)]⟩ := by
  have created : layered.createScopes 21 = (.ok 0, layeredScopes) := by decide +kernel
  have parts : layeredScopes.functionScopes 20 = .ok (1, 2) := rfl
  have index : layeredScopes.scopes.localIndex 1 2 =
      ⟨[("a", 1), ("b", 2), ("c", 3), ("g", 4), ("d", 6)]⟩ := by decide
  obtain ⟨fs, bs, _, scopes, _, _, _, _, ⟨order, pre, _, filtered⟩, numbers, _⟩ :=
    variables_numbered layered layeredScopes 21 0
      (Tree.isTree_of_lt (by decide) (by decide) (by decide)) (by decide) rfl created 20 rfl
      (by decide)
  obtain ⟨rfl, rfl⟩ := Prod.mk.inj (Except.ok.inj (parts.symm.trans scopes))
  rw [index] at numbers
  exact ⟨created, parts, ⟨order, pre, filtered⟩, numbers⟩

end Program
end Liveness
