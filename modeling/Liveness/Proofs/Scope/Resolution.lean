import Liveness.Proofs.Scope.Overlay
import Liveness.Program

/-! Names mean what the text says they mean.

Once scopes have been laid over a whole program, the scope around a place is that of the nearest
node with a scope, and the scope around a scope is the one found from the parent of its node. So
the way outward through scopes passes the same constructs as the way up through the text, and
the search for a name ends in the scope of the nearest construct that declares it. -/
namespace Liveness

namespace ScopeForest
variable {f : ScopeForest}

/-! ### Searches outward have an answer -/

theorem Coherent.chain_le (h : f.Coherent) {s r : Nat} (hr : r ∈ f.chain s) : r ≤ s := by
  induction s using Nat.strongRecOn with
  | _ s ih =>
    rw [chain_eq h.outward] at hr
    cases hp : (f.scope s).parent with
    | none =>
      rw [hp] at hr
      exact Nat.le_of_eq (List.mem_singleton.mp hr)
    | some p =>
      rw [hp] at hr
      have lt := h.outward s p hp
      rcases List.mem_cons.mp hr with rfl | hr
      · exact Nat.le_refl r
      · exact Nat.le_trans (ih p lt hr) (Nat.le_of_lt lt)

/-- From a scope that is there the way outward has no gap. -/
theorem Coherent.settle_eq (h : f.Coherent) {s : Nat} (hs : s < f.scopes.size) (found : Option α) :
    f.settle s found = .ok found := by
  cases found with
  | some a => rfl
  | none =>
    have none : f.gap? s = none := by
      rw [gap?, List.find?_eq_none]
      intro r hr
      have := h.chain_le hr
      simp only [decide_eq_true_eq]
      omega
    rw [settle, none]

/-- A search outward has found something if and only if it did before any gap. -/
theorem settle_eq_some_iff {s : ScopeId} {found : Option α} {a : α} :
    f.settle s found = .ok (some a) ↔ found = some a := by
  cases found with
  | some b => simp [settle]
  | none => cases gap : f.gap? s <;> simp [settle, gap]

end ScopeForest

namespace Tree
variable {t : Tree} {root : NodeId} {f : ScopeForest}

/-- The nearest construct at or above a node that declares a name. -/
def declarer? (t : Tree) (root n : NodeId) (name : String) : Option NodeId :=
  (t.ancestors n).find? fun m => t.opens root m && (t.declaredNames m).contains name

/-- The variable that a name means at a node by the text: the one that the nearest construct
declaring the name has for it. -/
def meaning? (t : Tree) (root : NodeId) (f : ScopeForest) (n : NodeId) (name : String) :
    Option VarId :=
  (t.declarer? root n name).bind fun m => (f.at? m).bind (f.ownVar? · name)

theorem IsTree.declarer?_eq (h : t.IsTree) (root n : NodeId) (name : String) :
    t.declarer? root n name =
      if t.opens root n && (t.declaredNames n).contains name then some n
      else (t.parent n).bind fun p => t.declarer? root p name :=
  h.find?_ancestors _ n

/-- The forest mirrors the whole program at `root`. -/
abbrev Mirrors (t : Tree) (root : NodeId) (f : ScopeForest) : Prop :=
  t.Overlay root (fun m => t.opens root m = true) f

namespace Mirrors

theorem lt_size (h : t.Mirrors root f) {n : NodeId} {s : Nat} (at_n : f.at? n = some s) :
    s < f.scopes.size :=
  ((h.at_iff n s).mp at_n).1

theorem root_eq (h : t.Mirrors root f) {n : NodeId} {s : Nat} (at_n : f.at? n = some s) :
    (f.scope s).root = n :=
  ((h.at_iff n s).mp at_n).2

theorem at_root (h : t.Mirrors root f) {s : Nat} (hs : s < f.scopes.size) :
    f.at? (f.scope s).root = some s :=
  (h.at_iff _ s).mpr ⟨hs, rfl⟩

/-- A node with a scope is part of the program. -/
theorem inside (h : t.Mirrors root f) {n : NodeId} {s : Nat} (at_n : f.at? n = some s) :
    root ∈ t.ancestors n :=
  (opens_iff.mp ((h.opened n).mp ⟨s, at_n⟩)).1

theorem at_eq_none_iff (h : t.Mirrors root f) {n : NodeId} :
    f.at? n = none ↔ t.opens root n = false := by
  rw [Bool.eq_false_iff, ne_eq, ← h.opened n, ← Option.isSome_iff_exists]
  simp

theorem isFunctionScope_iff (h : t.Mirrors root f) {m : NodeId} {s : Nat} (at_m : f.at? m = some s) :
    f.isFunctionScope s = true ↔ t.kind m = .function := by
  rw [ScopeForest.isFunctionScope, beq_iff_eq, h.kind_eq s (h.lt_size at_m), h.root_eq at_m,
    scopeKind_eq_function_iff]

/-- The scope around a place is that of the nearest node with a scope. -/
theorem findSome?_at (h : t.Mirrors root f) (tree : t.IsTree) (n : NodeId) :
    (t.ancestors n).findSome? f.at? = (t.opener? root n).bind f.at? := by
  induction n using tree.induct_up with
  | _ n ih =>
    rw [tree.findSome?_ancestors, tree.opener?_eq]
    split
    · next opens =>
      obtain ⟨s, hs⟩ := (h.opened n).mpr opens
      rw [hs, Option.some_or, Option.bind_some, hs]
    · next closed =>
      rw [h.at_eq_none_iff.mpr (Bool.eq_false_iff.mpr closed), Option.none_or]
      cases hp : t.parent n with
      | none => rfl
      | some p => exact ih p hp

/-- The scope around a scope is the one around the parent of its node. -/
theorem parent_eq (h : t.Mirrors root f) (tree : t.IsTree) {n : NodeId} {s : Nat}
    (at_n : f.at? n = some s) :
    (f.scope s).parent = (t.parent n).bind fun p => (t.ancestors p).findSome? f.at? := by
  have lt := h.lt_size at_n
  have around := h.around s lt
  rw [h.root_eq at_n] at around
  have nearest : (t.parent n).bind (fun p => (t.ancestors p).findSome? f.at?) =
      ((t.parent n).bind (t.opener? root)).bind f.at? := by
    rw [Option.bind_assoc]
    exact congrArg _ (funext (h.findSome?_at tree))
  rw [nearest, ← around]
  cases hp : (f.scope s).parent with
  | none => rfl
  | some p => exact (h.at_root (Nat.lt_trans (h.coherent.outward s p hp) lt)).symm

/-- A scope has a variable for a name if and only if its node declares the name. -/
theorem ownVar?_eq_none_iff (h : t.Mirrors root f) {n : NodeId} {s : Nat} (at_n : f.at? n = some s)
    (name : String) : f.ownVar? s name = none ↔ name ∉ t.declaredNames n := by
  rw [ScopeForest.ownVar?, Table.find?_eq_none_iff, h.names s (h.lt_size at_n), h.root_eq at_n,
    List.mem_eraseDups]

/-- A search outward from the scope around a place finds what the name means there. -/
theorem resolve?_eq (h : t.Mirrors root f) (tree : t.IsTree) (name : String) (n : NodeId) :
    ((t.ancestors n).findSome? f.at?).bind (f.resolve? · name) = t.meaning? root f n name := by
  induction n using tree.induct_up with
  | _ n ih =>
    have above : ((t.parent n).bind fun p => (t.ancestors p).findSome? f.at?).bind
        (f.resolve? · name) = ((t.parent n).bind fun p => t.declarer? root p name).bind
          fun m => (f.at? m).bind (f.ownVar? · name) := by
      cases hp : t.parent n with
      | none => rfl
      | some p => exact ih p hp
    rw [meaning?, tree.declarer?_eq, tree.findSome?_ancestors]
    cases at_n : f.at? n with
    | none =>
      rw [h.at_eq_none_iff.mp at_n, Option.none_or]
      exact above
    | some s =>
      have opens : t.opens root n = true := (h.opened n).mp ⟨s, at_n⟩
      rw [opens, Bool.true_and, Option.some_or, Option.bind_some,
        ScopeForest.resolve?_eq h.coherent.outward, h.parent_eq tree at_n]
      by_cases declared : name ∈ t.declaredNames n
      · obtain ⟨v, own⟩ := Option.ne_none_iff_exists'.mp
          (mt (h.ownVar?_eq_none_iff at_n name).mp (not_not_intro declared))
        simp [declared, at_n, own]
      · rw [(h.ownVar?_eq_none_iff at_n name).mpr declared, Option.none_or]
        simpa [declared] using above

/-- Everywhere in the program there is a scope around. -/
theorem exists_scope (h : t.Mirrors root f) (tree : t.IsTree) {n : NodeId}
    (inside : root ∈ t.ancestors n) : ∃ s, (t.ancestors n).findSome? f.at? = some s := by
  obtain ⟨m, nearest⟩ := tree.exists_opener inside
  rw [h.findSome?_at tree, nearest]
  exact (h.opened m).mpr (List.find?_some nearest)

/-- Looking a name up in the scope around a place gives what the name means there. -/
theorem lookup_eq (h : t.Mirrors root f) (tree : t.IsTree) {n : NodeId} {s : Nat}
    (here : (t.ancestors n).findSome? f.at? = some s) (name : String) :
    f.lookup s name = .ok (t.meaning? root f n name) := by
  have resolved := h.resolve?_eq tree name n
  rw [here, Option.bind_some] at resolved
  rw [h.findSome?_at tree] at here
  obtain ⟨m, _, at_m⟩ := Option.bind_eq_some_iff.mp here
  rw [ScopeForest.lookup, h.coherent.settle_eq (h.lt_size at_m), resolved]

theorem meaning?_eq_some_iff (h : t.Mirrors root f) {n : NodeId} {name : String} {v : Nat} :
    t.meaning? root f n name = some v ↔ v < f.vars.size ∧ (f.var v).name = name ∧
      ∃ m, t.declarer? root n name = some m ∧ f.at? m = some (f.var v).scope := by
  simp only [meaning?, Option.bind_eq_some_iff, h.coherent.ownVar?_eq_some_iff]
  constructor
  · intro ⟨m, found, s, at_m, lt, scope, named⟩
    exact ⟨lt, named, m, found, scope ▸ at_m⟩
  · intro ⟨lt, named, m, found, at_m⟩
    exact ⟨m, found, _, at_m, lt, rfl, named⟩

/-- A name that some construct around declares has a meaning. -/
theorem exists_meaning (h : t.Mirrors root f) {n m : NodeId} {name : String}
    (found : t.declarer? root n name = some m) : ∃ v, t.meaning? root f n name = some v := by
  have here := List.find?_some found
  rw [Bool.and_eq_true, List.contains_iff_mem] at here
  obtain ⟨s, at_m⟩ := (h.opened m).mpr here.1
  obtain ⟨v, own⟩ := Option.ne_none_iff_exists'.mp
    (mt (h.ownVar?_eq_none_iff at_m name).mp (not_not_intro here.2))
  refine ⟨v, ?_⟩
  rw [meaning?, found, Option.bind_some, at_m]
  exact own

end Mirrors
end Tree

namespace Program

/-- Scopes laid over a program without any leave its text alone and mirror it. -/
theorem mirrors_of_createScopes {p p' : Program} {root : NodeId} {s : ScopeId}
    (tree : p.tree.IsTree) (plain : p.tree.PlainFunctions) (blank : p.scopes = {})
    (created : p.createScopes root = (.ok s, p')) :
    p'.tree = p.tree ∧ p.tree.Mirrors root p'.scopes ∧ p'.scopes.at? root = some s := by
  have result : (p.scopes.create p.tree root).1 = .ok s := congrArg Prod.fst created
  have grown : { p with scopes := (p.scopes.create p.tree root).2 } = p' :=
    congrArg Prod.snd created
  rw [blank] at result
  have run : (p.tree.bindProgram root).Gives {} s p'.scopes := by
    rw [← grown, blank]
    exact Prod.ext result rfl
  exact ⟨(congrArg Program.tree grown).symm, tree.overlay_bindProgram plain run⟩

/-- **Scopes follow the text.** Laid over a tree whose functions are laid out as they should be,
exactly the root and the functions, blocks, loops with a header and catch clauses below it have
a scope, one each, which sits in the scope around the parent of its node and lists the names
that its node declares in the order of the text. So wherever a name is looked up in the program,
what is found is the variable of the nearest construct that declares it, and nothing if there is
no such construct. -/
theorem createScopes_lexical (p p' : Program) (root : NodeId) (s : ScopeId)
    (tree : p.tree.IsTree) (plain : p.tree.PlainFunctions) (blank : p.scopes = {})
    (created : p.createScopes root = (.ok s, p')) :
    p'.tree = p.tree ∧ p'.scopes.at? root = some s ∧
    (∀ n, (∃ s, p'.scopes.at? n = some s) ↔
      root ∈ p.tree.ancestors n ∧ (n = root ∨ (p.tree.kind n).opensScope = true)) ∧
    (∀ n s, p'.scopes.at? n = some s ↔
      s < p'.scopes.scopes.size ∧ (p'.scopes.scope s).root = n) ∧
    (∀ n s, p'.scopes.at? n = some s → (p'.scopes.scope s).parent =
      if n = root then none else (p.tree.parent n).bind p'.closestScope?) ∧
    (∀ n s, p'.scopes.at? n = some s →
      (p'.scopes.scope s).vars.keys = (p.tree.declaredNames n).eraseDups) ∧
    ∀ n, root ∈ p.tree.ancestors n → ∃ s, p'.closestScope? n = some s ∧ ∀ name,
      match p.tree.declarer? root n name with
      | none => p'.scopes.lookup s name = .ok none
      | some m => ∃ v, p'.scopes.lookup s name = .ok (some v) ∧ v < p'.scopes.vars.size ∧
          (p'.scopes.var v).name = name ∧ p'.scopes.at? m = some (p'.scopes.var v).scope := by
  obtain ⟨same, mirrors, at_root⟩ := mirrors_of_createScopes tree plain blank created
  have closest (n : NodeId) : p'.closestScope? n = (p.tree.ancestors n).findSome? p'.scopes.at? := by
    rw [closestScope?, same]
  refine ⟨same, at_root, ?_, mirrors.at_iff, ?_, ?_, ?_⟩
  · intro n
    rw [mirrors.opened, Tree.opens_iff]
  · intro n s at_n
    rw [mirrors.parent_eq tree at_n]
    split
    · next here =>
      subst here
      have outside := tree.opener?_above_root n
      cases hp : p.tree.parent n with
      | none => rfl
      | some q =>
        rw [hp, Option.bind_some] at outside
        rw [Option.bind_some, mirrors.findSome?_at tree, outside]
        rfl
    · exact congrArg _ (funext fun q => (closest q).symm)
  · intro n s at_n
    rw [mirrors.names s (mirrors.lt_size at_n), mirrors.root_eq at_n]
  · intro n inside
    obtain ⟨s, here⟩ := mirrors.exists_scope tree inside
    refine ⟨s, (closest n).trans here, fun name => ?_⟩
    rw [mirrors.lookup_eq tree here]
    cases found : p.tree.declarer? root n name with
    | none => simp [Tree.meaning?, found]
    | some m =>
      obtain ⟨v, meaning⟩ := mirrors.exists_meaning found
      obtain ⟨lt, named, m', found', scope⟩ := mirrors.meaning?_eq_some_iff.mp meaning
      obtain rfl : m = m' := Option.some.inj (found.symm.trans found')
      exact ⟨v, congrArg Except.ok meaning, lt, named, scope⟩

/-- A function that catches `e` and then loops over `i`. The block of the loop has an `a` of its own
besides the parameter, and a function that reads `i` and `a`. -/
def sheltered : Program where
  tree := ⟨#[{ kind := .name "outer", parent := some 25 }, { kind := .name "a", parent := some 2 },
    { kind := .paramList, children := [1], parent := some 25 },
    { kind := .block, parent := some 23 }, { kind := .name "e", parent := some 22 },
    { kind := .name "i", parent := some 6 },
    { kind := .letDecl, children := [5], parent := some 20 },
    { kind := .empty, parent := some 20 }, { kind := .empty, parent := some 20 },
    { kind := .name "a", parent := some 10 },
    { kind := .letDecl, children := [9], parent := some 19 },
    { kind := .name "inner", parent := some 18 }, { kind := .paramList, parent := some 18 },
    { kind := .name "i", parent := some 14 },
    { kind := .exprStmt, children := [13], parent := some 17 },
    { kind := .name "a", parent := some 16 },
    { kind := .exprStmt, children := [15], parent := some 17 },
    { kind := .block, children := [14, 16], parent := some 18 },
    { kind := .function, children := [11, 12, 17], parent := some 19 },
    { kind := .block, children := [10, 18], parent := some 20 },
    { kind := .forLoop, children := [6, 7, 8, 19], parent := some 21 },
    { kind := .block, children := [20], parent := some 22 },
    { kind := .catchClause, children := [4, 21], parent := some 23 },
    { kind := .tryStmt, children := [3, 22], parent := some 24 },
    { kind := .block, children := [23], parent := some 25 },
    { kind := .function, children := [0, 2, 24] }]⟩

/-- The same program with its scopes. -/
def shelteredScopes : Program where
  tree := sheltered.tree
  scopes :=
    { scopes := #[{ kind := .function, root := 25, children := [1], vars := ⟨[("a", 0)]⟩ },
        { kind := .body, root := 24, parent := some 0, children := [2, 3] },
        { kind := .block, root := 3, parent := some 1 },
        { kind := .handler, root := 22, parent := some 1, children := [4], vars := ⟨[("e", 1)]⟩ },
        { kind := .block, root := 21, parent := some 3, children := [5] },
        { kind := .block, root := 20, parent := some 4, children := [6], vars := ⟨[("i", 2)]⟩ },
        { kind := .block, root := 19, parent := some 5, children := [7],
          vars := ⟨[("a", 3), ("inner", 4)]⟩ },
        { kind := .function, root := 18, parent := some 6, children := [8] },
        { kind := .body, root := 17, parent := some 7 }]
      vars := #[{ name := "a", scope := 0, node := 1, kind := .param },
        { name := "e", scope := 3, node := 4, kind := .caught },
        { name := "i", scope := 5, node := 5, kind := .mutable },
        { name := "a", scope := 6, node := 9, kind := .mutable },
        { name := "inner", scope := 6, node := 11, kind := .function }]
      roots := ⟨[(25, 0), (24, 1), (3, 2), (22, 3), (21, 4), (20, 5), (19, 6), (18, 7), (17, 8)]⟩ }

theorem isTree_sheltered : sheltered.tree.IsTree :=
  Tree.isTree_of_lt (by decide) (by decide) (by decide)

theorem createScopes_sheltered : sheltered.createScopes 25 = (.ok 0, shelteredScopes) := by
  decide +kernel

/-- In the inner function `a` is that of the block, `i` that of the loop and `e` what was caught;
before the loop there is no `i`. -/
theorem createScopes_lexical_sheltered :
    (∀ d ∈ [("a", 19), ("i", 20), ("e", 22)], ∃ s v,
      shelteredScopes.closestScope? 15 = some s ∧
      shelteredScopes.scopes.lookup s d.1 = .ok (some v) ∧
      shelteredScopes.scopes.at? d.2 = some (shelteredScopes.scopes.var v).scope) ∧
    ∃ s, shelteredScopes.closestScope? 3 = some s ∧
      shelteredScopes.scopes.lookup s "i" = .ok none := by
  obtain ⟨_, _, _, _, _, _, meaning⟩ := createScopes_lexical sheltered shelteredScopes 25 0
    isTree_sheltered (by decide) rfl createScopes_sheltered
  have declared : ∀ d ∈ [("a", 19), ("i", 20), ("e", 22)],
      sheltered.tree.declarer? 25 15 d.1 = some d.2 := by decide
  constructor
  · intro d hd
    obtain ⟨s, here, found⟩ := meaning 15 (by decide)
    have found := found d.1
    rw [declared d hd] at found
    obtain ⟨v, looked, _, _, scope⟩ := found
    exact ⟨s, v, here, looked, scope⟩
  · obtain ⟨s, here, found⟩ := meaning 3 (by decide)
    have undeclared : sheltered.tree.declarer? 25 3 "i" = none := rfl
    have found := found "i"
    rw [undeclared] at found
    exact ⟨s, here, found⟩

end Program
end Liveness
