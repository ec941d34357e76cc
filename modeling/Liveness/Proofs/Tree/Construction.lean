import Mathlib.Logic.Relation
import Liveness.Program
import Liveness.Tree.Build
import Liveness.Proofs.Tree.Loop
import Liveness.Proofs.Tree.Shape

/-! Parents in trees that are built.

A tree is built by constructors, each given nodes that are there already. However many nodes they
add, they add them one by one over nodes that are there (`Extends`). A new node becomes the parent
of its children, whoever their parent was, and the lists of their former parents stay as they are.
So a list of children says less than it seems: a node need not be the parent of what it lists.
What holds is that the parent is the newest of the nodes that list a child (`Arranged`).

Nodes come after what they list, so going up from parent to parent comes to an end. And if no node
is listed twice, the way up is the way down read backwards. -/
namespace Liveness

namespace Tree
variable {t t' : Tree}

/-- Nodes that are there. -/
def Has (t : Tree) (ns : List NodeId) : Prop := ∀ n ∈ ns, n < t.size

instance (t : Tree) (ns : List NodeId) : Decidable (t.Has ns) :=
  inferInstanceAs (Decidable (∀ n ∈ ns, n < t.size))

namespace Has
variable {ns ms : List NodeId}

theorem nil : t.Has [] := fun _ h => absurd h List.not_mem_nil

theorem append (h : t.Has ns) (h' : t.Has ms) : t.Has (ns ++ ms) := fun n hn =>
  (List.mem_append.mp hn).elim (h n) (h' n)

theorem left (h : t.Has (ns ++ ms)) : t.Has ns := fun n hn => h n (List.mem_append_left ms hn)

theorem right (h : t.Has (ns ++ ms)) : t.Has ms := fun n hn => h n (List.mem_append_right ns hn)

theorem mono (h : t.Has ns) (le : t.size ≤ t'.size) : t'.Has ns := fun n hn =>
  Nat.lt_of_lt_of_le (h n hn) le

end Has

/-! ### A new node -/

theorem size_setParent (t : Tree) (p c : NodeId) : (t.setParent p c).size = t.size := by
  simp [setParent, size]

theorem children_setParent (t : Tree) (p c n : NodeId) :
    (t.setParent p c).children n = t.children n := by
  simp only [setParent, children, node, Array.getElem?_modify]
  split
  · cases t.nodes[n]? <;> rfl
  · rfl

theorem parent_setParent (p : NodeId) {c : NodeId} (there : c < t.size) (n : NodeId) :
    (t.setParent p c).parent n = if n = c then some p else t.parent n := by
  simp only [setParent, parent, node, Array.getElem?_modify]
  by_cases same : c = n
  · subst same
    simp [Array.getElem?_eq_getElem there]
  · rw [if_neg same, if_neg (Ne.symm same)]

theorem size_setParents (t : Tree) (p : NodeId) (cs : List NodeId) :
    (cs.foldl (·.setParent p ·) t).size = t.size := by
  induction cs generalizing t with
  | nil => rfl
  | cons c cs ih => rw [List.foldl_cons, ih, size_setParent]

theorem children_setParents (t : Tree) (p : NodeId) (cs : List NodeId) (n : NodeId) :
    (cs.foldl (·.setParent p ·) t).children n = t.children n := by
  induction cs generalizing t with
  | nil => rfl
  | cons c cs ih => rw [List.foldl_cons, ih, children_setParent]

theorem parent_setParents (p : NodeId) {cs : List NodeId} (there : t.Has cs) (n : NodeId) :
    (cs.foldl (·.setParent p ·) t).parent n = if n ∈ cs then some p else t.parent n := by
  induction cs generalizing t with
  | nil => rfl
  | cons c cs ih =>
    have rest : (t.setParent p c).Has cs := fun d hd =>
      Nat.lt_of_lt_of_eq (there d (List.mem_cons_of_mem c hd)) (t.size_setParent p c).symm
    rw [List.foldl_cons, ih rest, parent_setParent p (there c List.mem_cons_self)]
    by_cases listed : n ∈ cs <;> simp [listed]

theorem node_push (t : Tree) (x : Node) (n : NodeId) :
    (⟨t.nodes.push x⟩ : Tree).node n = if n = t.size then x else t.node n := by
  rw [node, Array.getElem?_push, size]
  split
  · rfl
  · rfl

theorem size_add (t : Tree) (kind : Kind) (cs : List NodeId) :
    (t.add kind cs).2.size = t.size + 1 := by
  rw [add, size_setParents]
  simp [size]

/-- A new node lists its children, and the lists of the others stay. -/
theorem children_add (t : Tree) (kind : Kind) (cs : List NodeId) (n : NodeId) :
    (t.add kind cs).2.children n = if n = t.size then cs else t.children n := by
  rw [add, children_setParents, children, node_push]
  split
  · rfl
  · rfl

/-- A new node is the parent of its children, and the parents of the others stay. -/
theorem parent_add (kind : Kind) {cs : List NodeId} (there : t.Has cs) (n : NodeId) :
    (t.add kind cs).2.parent n = if n ∈ cs then some t.size else t.parent n := by
  have bound : (⟨t.nodes.push { kind, children := cs }⟩ : Tree).Has cs :=
    there.mono (by simp [size])
  have old : (⟨t.nodes.push { kind, children := cs }⟩ : Tree).parent n = t.parent n := by
    rw [parent, node_push]
    split
    -- The number of the new node named no node before, and so had no parent either.
    · next new => rw [parent, node_of_size_le (Nat.le_of_eq new.symm)]
    · rfl
  rw [add, parent_setParents _ bound, old]

/-- A tree after nodes were added to it, each over nodes that were there. -/
inductive Extends (t : Tree) : Tree → Prop
  | refl : Extends t t
  | add {t' : Tree} (kind : Kind) {cs : List NodeId} :
      Extends t t' → t'.Has cs → Extends t (t'.add kind cs).2

theorem Extends.trans {t'' : Tree} (h : t.Extends t') (h' : t'.Extends t'') : t.Extends t'' := by
  induction h' with
  | refl => exact h
  | add kind _ there ih => exact .add kind ih there

theorem Extends.size_le (h : t.Extends t') : t.size ≤ t'.size := by
  induction h with
  | refl => exact Nat.le_refl _
  | add kind _ _ ih =>
    rw [size_add]
    exact Nat.le_succ_of_le ih

end Tree

/-! ### Constructors -/

/-- A call of a constructor with the nodes it is given. What consists of one node, such as names,
literals and most statements and expressions, is a `node`. -/
inductive Construct where
  | node (kind : Kind) (children : List NodeId)
  | function (text : String) (params : List String) (body : NodeId)
  | declaration (kind : Kind) (text : String) (value : Option NodeId)
  | arrayPattern (names : List String)
  | forLoop (start condition increment : Option NodeId) (body : NodeId)
  | tryCatch (guarded : NodeId) (bound : String) (handler : NodeId) (final : Option NodeId)
deriving DecidableEq, Repr

namespace Construct

def build : Construct → Build NodeId
  | node kind children => Build.node kind children
  | function text params body => Build.function text params body
  | declaration kind text value => Build.declaration kind text value
  | arrayPattern names => Build.arrayPattern names
  | forLoop start condition increment body => Build.forLoop start condition increment body
  | tryCatch guarded bound handler final => Build.tryCatch guarded bound handler final

/-- The nodes a constructor is given. -/
def parts : Construct → List NodeId
  | node _ children => children
  | function _ _ body => [body]
  | declaration _ _ value => value.toList
  | arrayPattern _ => []
  | forLoop start condition increment body =>
    start.toList ++ condition.toList ++ increment.toList ++ [body]
  | tryCatch guarded _ handler final => [guarded] ++ [handler] ++ final.toList

end Construct

namespace Build
variable {α β : Type} {t : Tree}

/-- A step of building extends a tree, and the nodes it returns are there then. -/
structure Adds (b : Build α) (nodes : α → List NodeId) (t : Tree) : Prop where
  extension : t.Extends (b t).2
  there : (b t).2.Has (nodes (b t).1)

theorem Adds.pure {a : α} {nodes : α → List NodeId} (there : t.Has (nodes a)) :
    Adds (Pure.pure a) nodes t :=
  ⟨.refl, there⟩

/-- Of two steps, the second finds the nodes of the first and all that were there before. -/
theorem Adds.bind {b : Build α} {k : α → Build β} {nodes : α → List NodeId}
    {nodes' : β → List NodeId} (first : Adds b nodes t)
    (second : ∀ a t', t.size ≤ t'.size → t'.Has (nodes a) → Adds (k a) nodes' t') :
    Adds (b >>= k) nodes' t := by
  have rest := second (b t).1 (b t).2 first.extension.size_le first.there
  exact ⟨first.extension.trans rest.extension, rest.there⟩

theorem adds_node (kind : Kind) {cs : List NodeId} (there : t.Has cs) :
    Adds (node kind cs) (fun n => [n]) t := by
  refine ⟨.add kind .refl there, fun n hn => ?_⟩
  rw [List.mem_singleton.mp hn]
  exact Nat.lt_of_lt_of_eq (Nat.lt_succ_self t.size) (t.size_add kind cs).symm

theorem adds_names (texts : List String) (t : Tree) :
    Adds (texts.mapM fun text => name text) (fun ns => ns) t := by
  induction texts generalizing t with
  | nil => exact .pure .nil
  | cons text texts ih =>
    rw [List.mapM_cons]
    refine (adds_node (.name text) .nil).bind fun n t₁ _ first => ?_
    refine (ih t₁).bind fun ns t₂ le rest => ?_
    exact .pure ((first.mono le).append rest)

theorem adds_part {n : Option NodeId} (there : t.Has n.toList) :
    Adds (part n) (fun n => [n]) t := by
  cases n with
  | none => exact adds_node .empty .nil
  | some n => exact .pure there

/-- Every constructor extends a tree that has the nodes it is given. -/
theorem adds_build (c : Construct) (there : t.Has c.parts) : Adds c.build (fun n => [n]) t := by
  cases c with
  | node kind children => exact adds_node kind there
  | function text params body =>
    refine (adds_node (.name text) .nil).bind fun called t₁ le₁ hasCalled => ?_
    refine (adds_names params t₁).bind fun names t₂ le₂ hasNames => ?_
    refine (adds_node .paramList hasNames).bind fun list t₃ le₃ hasList => adds_node .function ?_
    have hasBody := there.mono (Nat.le_trans le₁ (Nat.le_trans le₂ le₃))
    exact (hasCalled.mono (Nat.le_trans le₂ le₃)).append (hasList.append hasBody)
  | declaration kind text value =>
    exact (adds_node (.name text) there).bind fun bound t₁ _ hasBound => adds_node kind hasBound
  | arrayPattern names =>
    exact (adds_names names t).bind fun bound t₁ _ hasBound => adds_node .arrayPattern hasBound
  | forLoop start condition increment body =>
    refine (adds_part there.left.left.left).bind fun s t₁ le₁ hasStart => ?_
    refine (adds_part (there.left.left.right.mono le₁)).bind fun c t₂ le₂ hasCondition => ?_
    refine (adds_part (there.left.right.mono (Nat.le_trans le₁ le₂))).bind
      fun i t₃ le₃ hasIncrement => adds_node .forLoop ?_
    have hasBody := there.right.mono (Nat.le_trans le₁ (Nat.le_trans le₂ le₃))
    exact (hasStart.mono (Nat.le_trans le₂ le₃)).append
      ((hasCondition.mono le₃).append (hasIncrement.append hasBody))
  | tryCatch guarded bound handler final =>
    have hasHandler : t.Has [handler] := there.left.right
    refine (adds_node (.name bound) .nil).bind fun named t₁ le₁ hasNamed => ?_
    refine (adds_node .catchClause (hasNamed.append (hasHandler.mono le₁))).bind
      fun clause t₂ le₂ hasClause => adds_node .tryStmt ?_
    exact ((there.left.left.mono (Nat.le_trans le₁ le₂)).append hasClause).append
      (there.right.mono (Nat.le_trans le₁ le₂))

end Build

namespace Tree
open Loop
variable {t t' : Tree}

/-- The tree after a constructor, if the nodes it is given are there. -/
def construct? (t : Tree) (c : Construct) : Option Tree :=
  if t.Has c.parts then some (c.build t).2 else none

def constructs? (t : Tree) (cs : List Construct) : Option Tree := cs.foldlM construct? t

theorem extends_of_constructs {cs : List Construct} (h : t.constructs? cs = some t') :
    t.Extends t' := by
  induction cs generalizing t with
  | nil =>
    cases h
    exact .refl
  | cons c cs ih =>
    rw [constructs?, List.foldlM_cons, Option.bind_eq_bind, Option.bind_eq_some_iff] at h
    obtain ⟨t₁, first, rest⟩ := h
    rw [construct?, Option.ite_none_right_eq_some] at first
    obtain ⟨there, made⟩ := first
    obtain rfl := Option.some.inj made
    exact (Build.adds_build c there).extension.trans (ih rest)

/-! ### What is known about parents -/

/-- Nodes come after what they list, and the parent of a node is the newest that lists it. -/
structure Arranged (t : Tree) : Prop where
  older : ∀ n, ∀ c ∈ t.children n, c < n
  linked : t.Linked
  newest : ∀ n, ∀ c ∈ t.children n, ∃ p, t.parent c = some p ∧ n ≤ p

namespace Arranged

theorem empty : ({} : Tree).Arranged where
  older n _ hc := absurd (lt_size_of_mem_children hc) (Nat.not_lt_zero n)
  linked c _ hp := absurd (lt_size_of_parent hp) (Nat.not_lt_zero c)
  newest n _ hc := absurd (lt_size_of_mem_children hc) (Nat.not_lt_zero n)

/-- A new node is newer than all others, so it is the newest that lists its children. -/
theorem add (h : t.Arranged) (kind : Kind) {cs : List NodeId} (there : t.Has cs) :
    (t.add kind cs).2.Arranged where
  older n c hc := by
    rw [children_add] at hc
    split at hc
    · next new => exact new ▸ there c hc
    · exact h.older n c hc
  linked c p hp := by
    rw [parent_add kind there] at hp
    rw [children_add]
    split at hp
    · next listed =>
      cases hp
      rwa [if_pos rfl]
    -- A parent from before still lists the node: no list is changed but that of the new node.
    · have hc := h.linked c p hp
      rwa [if_neg (Nat.ne_of_lt (lt_size_of_mem_children hc))]
  newest n c hc := by
    rw [children_add] at hc
    rw [parent_add kind there]
    by_cases listed : c ∈ cs
    · rw [if_pos listed]
      refine ⟨t.size, rfl, ?_⟩
      split at hc
      · next new => exact Nat.le_of_eq new
      · exact Nat.le_of_lt (lt_size_of_mem_children hc)
    · rw [if_neg listed]
      split at hc
      · exact absurd hc listed
      · exact h.newest n c hc

theorem extension (h : t.Arranged) (more : t.Extends t') : t'.Arranged := by
  induction more with
  | refl => exact h
  | add kind _ there ih => exact ih.add kind there

theorem acyclic (h : t.Arranged) : t.Acyclic := ⟨id, h.older⟩

theorem parent_iff (h : t.Arranged) (c p : NodeId) :
    t.parent c = some p ↔ c ∈ t.children p ∧ ∀ n, c ∈ t.children n → n ≤ p := by
  constructor
  · intro hp
    refine ⟨h.linked c p hp, fun n hc => ?_⟩
    obtain ⟨q, hq, le⟩ := h.newest n c hc
    rw [hp] at hq
    exact Option.some.inj hq ▸ le
  · rintro ⟨hc, last⟩
    obtain ⟨q, hq, le⟩ := h.newest p c hc
    rw [hq, Nat.le_antisymm (last q (h.linked c q hq)) le]

theorem listed_iff (h : t.Arranged) (c : NodeId) :
    (∃ n, c ∈ t.children n) ↔ ∃ p, t.parent c = some p := by
  constructor
  · rintro ⟨n, hc⟩
    obtain ⟨p, hp, _⟩ := h.newest n c hc
    exact ⟨p, hp⟩
  · rintro ⟨p, hp⟩
    exact ⟨p, h.linked c p hp⟩

/-- The ancestors of a node are the nodes that are reached from it by going to the parent. -/
theorem mem_ancestors_iff (h : t.Arranged) {m n : NodeId} :
    n ∈ t.ancestors m ↔ Relation.ReflTransGen (fun a b => t.parent a = some b) m n := by
  induction m using h.acyclic.induct_up h.linked with
  | _ m ih =>
    rw [ancestors_eq h.acyclic h.linked, List.mem_cons, Relation.ReflTransGen.cases_head_iff,
      eq_comm]
    refine or_congr_right ?_
    cases up : t.parent m with
    | none => simp
    | some p => simp [ih p up]

end Arranged

/-- No node is listed twice, whether by two nodes or by one. -/
structure Unshared (t : Tree) : Prop where
  one : ∀ n m c, c ∈ t.children n → c ∈ t.children m → n = m
  nodup : ∀ n, (t.children n).Nodup

theorem unshared_of_lt
    (one : ∀ n < t.size, ∀ m < t.size, ∀ c ∈ t.children n, c ∈ t.children m → n = m)
    (nodup : ∀ n < t.size, (t.children n).Nodup) : t.Unshared where
  one n m c hn hm := one n (lt_size_of_mem_children hn) m (lt_size_of_mem_children hm) c hn hm
  nodup := nodup_of_lt nodup

theorem Arranged.isTree (h : t.Arranged) (unshared : t.Unshared) : t.IsTree where
  acyclic := h.acyclic
  parent_iff n c := by
    refine ⟨h.linked c n, fun hc => ?_⟩
    obtain ⟨p, hp, _⟩ := h.newest n c hc
    rw [hp, unshared.one p n c (h.linked c p hp) hc]
  nodup := unshared.nodup

/-! ### Searches up -/

/-- One step up from parent to parent: the search is over at a node where something is found, and
above the last one. -/
def climbRound (t : Tree) {α : Type} (find : NodeId → Option α) :
    Option NodeId → Round (Option NodeId) (Option α)
  | none => .over none
  | some n =>
    match find n with
    | some a => .over (some a)
    | none => .again (t.parent n)

/-- A search upward ends with what is found first among the ancestors. -/
theorem ends_climbRound (acyclic : t.Acyclic) (linked : t.Linked) {α : Type}
    (find : NodeId → Option α) (n : NodeId) :
    Ends (t.climbRound find) (some n) ((t.ancestors n).findSome? find) := by
  induction n using acyclic.induct_up linked with
  | _ n ih =>
    rw [ancestors_eq acyclic linked, List.findSome?_cons]
    cases here : find n with
    | some a => exact .over (by simp [climbRound, here])
    | none =>
      have up : t.climbRound find (some n) = .again (t.parent n) := by simp [climbRound, here]
      refine .again up ?_
      cases above : t.parent n with
      | none => exact .over rfl
      | some p => exact ih p above

/-- The search for the function around a node. -/
def functionRound (t : Tree) : Option NodeId → Round (Option NodeId) (Option NodeId) :=
  t.climbRound (Option.guard t.isFunction)

end Tree

namespace Program
open Loop

/-- The search for the scope around a node. -/
def scopeRound (p : Program) : Option NodeId → Round (Option NodeId) (Option ScopeId) :=
  p.tree.climbRound p.scopes.at?

/-- **Parents are sound.** In every program whose tree was built by constructors from nodes that
were there, shared or repeated as they may be:

- a node has a parent if and only if it is listed somewhere, its parent is the newest node that
  lists it, and nodes are newer than what they list;
- so the searches for the function and the scope around a node end, wherever they start, and so do
  walks over what is below a node;
- and if no node is listed twice, the nodes at and below a node are those from which it is reached
  by going to the parent, and a walk meets none of them twice. -/
theorem parents_sound (p : Program) (cs : List Construct)
    (built : Tree.constructs? {} cs = some p.tree) :
    (∀ c, (∃ n, c ∈ p.tree.children n) ↔ ∃ n, p.tree.parent c = some n) ∧
    (∀ c n, p.tree.parent c = some n ↔
      c ∈ p.tree.children n ∧ ∀ m, c ∈ p.tree.children m → m ≤ n) ∧
    (∀ n, ∀ c ∈ p.tree.children n, c < n) ∧
    (∀ n, Ends p.tree.functionRound (some n) (p.tree.enclosingFunction? n)) ∧
    (∀ n, Ends p.scopeRound (some n) (p.closestScope? n)) ∧
    (∀ r, Ends p.tree.preorderRound ⟨[r], []⟩ (p.tree.preorder r)) ∧
    (p.tree.Unshared → ∀ r,
      (∀ m, m ∈ p.tree.preorder r ↔
        Relation.ReflTransGen (fun a b => p.tree.parent a = some b) m r) ∧
      (p.tree.preorder r).Nodup) := by
  have arranged := Tree.Arranged.empty.extension (Tree.extends_of_constructs built)
  have ends {α : Type} (find : NodeId → Option α) (n : NodeId) :=
    Tree.ends_climbRound arranged.acyclic arranged.linked find n
  refine ⟨arranged.listed_iff, arranged.parent_iff, arranged.older, fun n => ?_, ends p.scopes.at?,
    Tree.ends_preorderRound arranged.acyclic, fun unshared r => ?_⟩
  · rw [Tree.enclosingFunction?, List.find?_eq_findSome?_guard]
    exact ends (Option.guard p.tree.isFunction) n
  · have tree := arranged.isTree unshared
    refine ⟨fun m => ?_, tree.nodup_preorder r⟩
    rw [tree.mem_preorder_iff, arranged.mem_ancestors_iff]

/-- `function f(a) { x; var y = x; x; }` in which `x` is one node throughout, and so is `x;`. -/
def regrouped : List Construct :=
  [.node (.name "x") [], .node .exprStmt [0], .declaration .varDecl "y" (some 0),
    .node .block [1, 3, 1], .function "f" ["a"] 4]

def regroupedTree : Tree :=
  { nodes := #[
      { kind := .name "x", parent := some 2 },
      { kind := .exprStmt, children := [0], parent := some 4 },
      { kind := .name "y", children := [0], parent := some 3 },
      { kind := .varDecl, children := [2], parent := some 4 },
      { kind := .block, children := [1, 3, 1], parent := some 8 },
      { kind := .name "f", parent := some 8 },
      { kind := .name "a", parent := some 7 },
      { kind := .paramList, children := [6], parent := some 8 },
      { kind := .function, children := [5, 7, 4] }] }

/-- `for (;;) { try { x; } catch (e) {} }` -/
def patient : List Construct :=
  [.node (.name "x") [], .node .exprStmt [0], .node .block [1], .node .block [],
    .tryCatch 2 "e" 3 none, .node .block [6], .forLoop none none none 7]

def patientTree : Tree :=
  { nodes := #[
      { kind := .name "x", parent := some 1 },
      { kind := .exprStmt, children := [0], parent := some 2 },
      { kind := .block, children := [1], parent := some 6 },
      { kind := .block, parent := some 5 },
      { kind := .name "e", parent := some 5 },
      { kind := .catchClause, children := [4, 3], parent := some 6 },
      { kind := .tryStmt, children := [2, 5], parent := some 7 },
      { kind := .block, children := [6], parent := some 11 },
      { kind := .empty, parent := some 11 },
      { kind := .empty, parent := some 11 },
      { kind := .empty, parent := some 11 },
      { kind := .forLoop, children := [8, 9, 10, 7] }] }

theorem parents_sound_regrouped :
    (Tree.constructs? {} regrouped = some regroupedTree ∧ 0 ∈ regroupedTree.children 1 ∧
      regroupedTree.parent 0 = some 2 ∧ (∀ m, 0 ∈ regroupedTree.children m → m ≤ 2) ∧
      Ends regroupedTree.functionRound (some 0) (some 8) ∧
      Ends (Program.createScopes { tree := regroupedTree } 8).2.scopeRound (some 0) (some 1)) ∧
    (Tree.constructs? {} patient = some patientTree ∧ patientTree.Unshared ∧
      Relation.ReflTransGen (fun a b => patientTree.parent a = some b) 0 11 ∧
      ¬ Relation.ReflTransGen (fun a b => patientTree.parent a = some b) 0 5) := by
  have built : Tree.constructs? {} regrouped = some regroupedTree := rfl
  have built' : Tree.constructs? {} patient = some patientTree := rfl
  obtain ⟨_, newest, _, function, scope, _⟩ :=
    parents_sound (Program.createScopes { tree := regroupedTree } 8).2 regrouped built
  obtain ⟨_, _, _, _, _, _, below⟩ := parents_sound { tree := patientTree } patient built'
  have unshared : patientTree.Unshared := Tree.unshared_of_lt (by decide) (by decide)
  refine ⟨⟨built, by decide, rfl, ((newest 0 2).mp rfl).2, function 0, scope 0⟩, built', unshared,
    ?_, ?_⟩
  · exact ((below unshared 11).1 0).mp (by decide)
  · exact fun above => absurd (((below unshared 5).1 0).mpr above) (by decide)

end Program
end Liveness
