import Mathlib.Logic.Basic
import Liveness.Proofs.Loop
import Liveness.Proofs.Scope.Acyclic

/-! Walks through a tree with a stack.

A walk downward is a recursion that is cut off at the number of nodes. It can as well be made by a
loop with a stack, which nothing cuts off. In an acyclic tree the loop ends, and passes every place
of a node once, in the order of the text, those below a node that it skips excepted
(`Occurrence`). -/
namespace Liveness.Tree
open Loop
variable {t : Tree} {skips wants : NodeId → Bool}

/-! ### The two walks -/

/-- A walk over everything below a node. -/
def preorderRound (t : Tree) : StackWalk NodeId → Round (StackWalk NodeId) (List NodeId) :=
  stackRound t.children (fun _ => false) (fun _ => true)

/-- A function other than the one a walk starts at. -/
def isInner (t : Tree) (root n : NodeId) : Bool := t.isFunction n && n != root

def isVar (t : Tree) (n : NodeId) : Bool := t.kind n == .varDecl

/-- A walk that looks for `var` declarations and does not go into functions, except the one it
starts at. -/
def hoistRound (t : Tree) (root : NodeId) :
    StackWalk NodeId → Round (StackWalk NodeId) (List NodeId) :=
  stackRound t.children (t.isInner root) t.isVar

/-! ### Places -/

/-- A node at one of its places: the nodes above it there, nearest first. -/
structure Occurrence where
  node : NodeId
  above : List NodeId
deriving DecidableEq, Repr

/-- The same place with one more node above everything. -/
def Occurrence.under (n : NodeId) (o : Occurrence) : Occurrence :=
  { o with above := o.above ++ [n] }

def occurrencesStep (t : Tree) : Step (List Occurrence) := fun below n =>
  ⟨n, []⟩ :: (t.children n).flatMap fun c => (below c).map (·.under n)

/-- The places at and below a node, in the order of the text. -/
def occurrences (t : Tree) (n : NodeId) : List Occurrence := t.descend t.occurrencesStep [] n

/-- The `var` declarations at and below a node, place by place, without those below a function
other than that node. -/
def ownVars (t : Tree) (root : NodeId) : List NodeId :=
  ((t.occurrences root).filter fun o =>
    t.kind o.node = .varDecl ∧ ∀ f ∈ o.above, t.isFunction f = true → f = root).map (·.node)

theorem local_occurrencesStep (t : Tree) : t.Local t.occurrencesStep := fun n f g h => by
  rw [occurrencesStep, occurrencesStep, flatMap_congr fun c hc => by rw [h c (.child hc)]]

/-- The places of a node are its own and then those of its children, which are below it. -/
theorem occurrences_eq (acyclic : t.Acyclic) (n : NodeId) :
    t.occurrences n =
      ⟨n, []⟩ :: (t.children n).flatMap fun c => (t.occurrences c).map (·.under n) :=
  descend_eq acyclic t.local_occurrencesStep [] n

/-- The nodes at the places of a node are those at and below it. -/
theorem map_node_occurrences (acyclic : t.Acyclic) (n : NodeId) :
    (t.occurrences n).map (·.node) = t.preorder n := by
  induction n using acyclic.induct with
  | _ n ih =>
    rw [occurrences_eq acyclic, preorder_eq acyclic, List.map_cons, List.map_flatMap]
    congr 1
    refine flatMap_congr fun c hc => ?_
    rw [← ih c hc, List.map_map]
    rfl

/-! ### What a walk finds -/

/-- Whether a walk notes a node at a place. -/
def notes (skips wants : NodeId → Bool) (o : Occurrence) : Bool :=
  wants o.node && !skips o.node && o.above.all (!skips ·)

/-- The nodes that a walk notes. -/
def noted (t : Tree) (skips wants : NodeId → Bool) (n : NodeId) : List NodeId :=
  ((t.occurrences n).filter (notes skips wants)).map (·.node)

theorem notes_under (n : NodeId) (o : Occurrence) :
    notes skips wants (o.under n) = (!skips n && notes skips wants o) := by
  simp only [notes, Occurrence.under, List.all_append, List.all_cons, List.all_nil, Bool.and_true]
  rw [← Bool.and_assoc, Bool.and_comm]

theorem notes_nil (n : NodeId) : notes skips wants ⟨n, []⟩ = (wants n && !skips n) := by
  simp [notes]

/-- Below a node that is not skipped a walk finds what it finds anyway. -/
theorem noted_under (os : List Occurrence) (n : NodeId) :
    ((os.map (·.under n)).filter (notes skips wants)).map (·.node) =
      if skips n then [] else (os.filter (notes skips wants)).map (·.node) := by
  have same : notes skips wants ∘ (·.under n) = fun o => !skips n && notes skips wants o :=
    funext (notes_under n)
  rw [List.filter_map, List.map_map, same]
  cases skips n with
  | true => simp
  | false => simp only [Bool.not_false, Bool.true_and]; rfl

/-- A walk finds nothing at a node that it skips, and else the node, if that is wanted, and what it
finds at the children. -/
theorem noted_eq (acyclic : t.Acyclic) (n : NodeId) :
    t.noted skips wants n =
      if skips n then []
      else (if wants n then [n] else []) ++ (t.children n).flatMap (t.noted skips wants) := by
  rw [noted, occurrences_eq acyclic, List.filter_cons, notes_nil, List.filter_flatMap]
  by_cases skipped : skips n = true
  · simp [List.map_flatMap, noted_under, skipped]
  · have inner : (((t.children n).flatMap fun c =>
        ((t.occurrences c).map (·.under n)).filter (notes skips wants)).map (·.node)) =
          (t.children n).flatMap (t.noted skips wants) := by
      rw [List.map_flatMap]
      exact flatMap_congr fun c _ => by rw [noted_under, if_neg skipped, noted]
    by_cases wanted : wants n = true <;> simp [skipped, wanted, inner]

/-- No node is below itself, so the loops of walks end. -/
theorem Acyclic.wellFounded (acyclic : t.Acyclic) : WellFounded fun c n => c ∈ t.children n :=
  ⟨acyclic.induct fun n below => ⟨n, below⟩⟩

theorem ends_noted (acyclic : t.Acyclic) (skips wants : NodeId → Bool) (root : NodeId) :
    Ends (stackRound t.children skips wants) ⟨[root], []⟩ (t.noted skips wants root) :=
  ends_from_root acyclic.wellFounded (noted_eq acyclic) root []

/-! ### What the two walks find -/

theorem noted_all (acyclic : t.Acyclic) (n : NodeId) :
    t.noted (fun _ => false) (fun _ => true) n = t.preorder n := by
  rw [noted, List.filter_eq_self.mpr (by simp [notes]), map_node_occurrences acyclic]

theorem ends_preorderRound (acyclic : t.Acyclic) (root : NodeId) :
    Ends t.preorderRound ⟨[root], []⟩ (t.preorder root) := by
  rw [← noted_all acyclic]
  exact ends_noted acyclic _ _ root

/-- A walk that goes into no function but the one it starts at finds the declarations that are
below no other. -/
theorem noted_vars (t : Tree) (root : NodeId) :
    t.noted (t.isInner root) t.isVar root = t.ownVars root := by
  rw [noted, ownVars]
  congr 1
  refine List.filter_congr fun o _ => ?_
  rw [notes, Bool.eq_iff_iff]
  by_cases hv : t.kind o.node = .varDecl
  · have plain : t.isFunction o.node = false := by rw [isFunction, hv]; rfl
    simp [isVar, isInner, hv, plain, or_iff_not_imp_left]
  · simp [isVar, hv]

/-- Below the node it starts at, such a walk finds the `var` declarations outside functions. -/
theorem noted_vars_below (acyclic : t.Acyclic) {root n : NodeId} (h : t.Below root n) :
    t.noted (t.isInner root) t.isVar n = t.varDecls n := by
  induction n using acyclic.induct with
  | _ n ih =>
    -- A function that is met on the way is never the start, which is not below itself.
    have other : n ≠ root := fun same => acyclic.not_below_self root (same ▸ h)
    have inner := flatMap_congr fun c hc => ih c hc (h.snoc hc)
    rw [noted_eq acyclic, varDecls_eq acyclic, varDeclsStep, inner]
    cases hk : t.kind n <;> simp [isInner, isVar, isFunction, Kind.isFunction, hk, other]

/-- What a body declares by `var` is what its own `var` declarations declare. -/
theorem hoisted_eq (acyclic : t.Acyclic) (root : NodeId) :
    t.hoisted root = (t.ownVars root).flatMap (t.bindings .plain) := by
  have inner : (t.children root).flatMap (t.noted (t.isInner root) t.isVar) =
      (t.children root).flatMap t.varDecls :=
    flatMap_congr fun c hc => noted_vars_below acyclic (.child hc)
  rw [hoisted, ← noted_vars, noted_eq acyclic, inner]
  simp [isInner, isVar]

/-- **Walks with a stack follow the text.** In an acyclic tree, whose nodes may be shared, they end
wherever they start. The one that goes everywhere finds the nodes at and below its start: that
node, and then those at and below each child, each once for each of its places. The one that looks
for `var` declarations finds, in the same order, those that are not below a function other than
its start, and those are what the start declares by `var`. -/
theorem stackWalks_follow_text (t : Tree) (acyclic : t.Acyclic) (root : NodeId) :
    Ends t.preorderRound ⟨[root], []⟩ (t.preorder root) ∧
    t.preorder root = root :: (t.children root).flatMap t.preorder ∧
    t.preorder root = (t.occurrences root).map (·.node) ∧
    (t.occurrences root = ⟨root, []⟩ :: (t.children root).flatMap fun c =>
      (t.occurrences c).map (·.under root)) ∧
    Ends (t.hoistRound root) ⟨[root], []⟩ (t.ownVars root) ∧
    t.hoisted root = (t.ownVars root).flatMap (t.bindings .plain) := by
  refine ⟨ends_preorderRound acyclic root, preorder_eq acyclic root,
    (map_node_occurrences acyclic root).symm, occurrences_eq acyclic root, ?_,
    hoisted_eq acyclic root⟩
  rw [← noted_vars]
  exact ends_noted acyclic _ _ root

/-- A block whose `var` declaration stands in it twice, in a nested block and in a nested function
that shares that block; the whole is the body of a function. -/
def sharing : Tree :=
  { nodes := #[
      { kind := .name "x", parent := some 1 },
      { kind := .varDecl, children := [0], parent := some 6 },
      { kind := .block, children := [1], parent := some 6 },
      { kind := .name "g", parent := some 5 },
      { kind := .paramList, parent := some 5 },
      { kind := .function, children := [3, 4, 2], parent := some 6 },
      { kind := .block, children := [1, 5, 1, 2], parent := some 9 },
      { kind := .name "f", parent := some 9 },
      { kind := .paramList, parent := some 9 },
      { kind := .function, children := [7, 8, 6] }] }

theorem stackWalks_follow_text_sharing :
    sharing.Acyclic ∧
      Ends sharing.preorderRound ⟨[9], []⟩ [9, 7, 8, 6, 1, 0, 5, 3, 4, 2, 1, 0, 1, 0, 2, 1, 0] ∧
      Ends (sharing.hoistRound 9) ⟨[9], []⟩ [1, 1, 1] ∧
      sharing.hoisted 9 = List.replicate 3 (.ok ⟨"x", 0, .plain⟩) := by
  have acyclic : sharing.Acyclic := acyclic_of_lt (by decide)
  obtain ⟨all, _, _, _, own, hoisted⟩ := stackWalks_follow_text sharing acyclic 9
  have vars : sharing.ownVars 9 = [1, 1, 1] := rfl
  rw [vars] at own hoisted
  exact ⟨acyclic, all, own, hoisted⟩

end Liveness.Tree
