import Liveness.Program
import Liveness.Proofs.Scope.Forest
import Liveness.Proofs.Tree.Acyclic

/-! The links of a forest agree, whatever was done to it.

A forest keeps its links twice: a scope names the one around it and is listed there, a variable
names its scope and stands in the table there, and a node leads to a scope that names the node.
Nothing but two operations ever changes a forest, and laying scopes over a program is no
exception: whether it ends well or stops half way, all it did is open scopes inside scopes that
it opened itself, at nodes of the program, and add variables to them (`Grown`). That is shown once,
for each step of the work (`Grows`); what else is said about forests follows from what these two
operations do. Here it is that they keep the links in agreement. -/
namespace Liveness

namespace ScopeForest
variable {low : Nat} {part part' : NodeId → Prop} {base f f' : ScopeForest}

/-- What becomes of a forest by opening scopes and adding variables. Scopes are opened at nodes of
`part`; only scopes from `low` on get inner scopes or variables. -/
inductive Grown (low : Nat) (part : NodeId → Prop) (base : ScopeForest) : ScopeForest → Prop
  | same : Grown low part base base
  | openScope {f : ScopeForest} {kind : ScopeKind} {root : NodeId} {parent : Option ScopeId} :
      Grown low part base f → part root → (∀ p ∈ parent, low ≤ p) → f.Has parent →
      Grown low part base (f.openScope kind root parent).2
  | addVar {f : ScopeForest} {s : ScopeId} {name : String} {node : NodeId} {kind : VarKind} :
      Grown low part base f → low ≤ s → s < f.scopes.size → f.ownVar? s name = none →
      Grown low part base (f.addVar s name node kind).2

namespace Grown

theorem size_le (h : Grown low part base f) : base.scopes.size ≤ f.scopes.size := by
  induction h with
  | same => exact Nat.le_refl _
  | openScope _ _ _ _ ih =>
    rw [size_openScope]
    omega
  | addVar _ _ _ _ ih =>
    rw [size_addVar]
    exact ih

theorem has (h : Grown low part base f) {inside : Option ScopeId} (has : base.Has inside) :
    f.Has inside :=
  fun s hs => Nat.lt_of_lt_of_le (has s hs) h.size_le

theorem trans (h : Grown low part base f) (h' : Grown low part f f') : Grown low part base f' := by
  induction h' with
  | same => exact h
  | openScope _ here new has ih => exact ih.openScope here new has
  | addVar _ new there own ih => exact ih.addVar new there own

theorem mono (h : Grown low part base f) (sub : ∀ n, part n → part' n) :
    Grown low part' base f := by
  induction h with
  | same => exact .same
  | openScope _ here new has ih => exact ih.openScope (sub _ here) new has
  | addVar _ new there own ih => exact ih.addVar new there own

end Grown

/-- A declaration that succeeds changes nothing, or adds a variable whose name is new. -/
theorem of_declare {s : ScopeId} {v : VarId} {name : String} {node : NodeId} {kind : VarKind}
    (done : f.declare s name node kind = .ok (v, f')) :
    f' = f ∨ f.ownVar? s name = none ∧ f' = (f.addVar s name node kind).2 := by
  unfold declare at done
  cases own : f.ownVar? s name with
  | some w =>
    rw [own] at done
    dsimp only at done
    split at done
    · cases done
    · cases done
      exact .inl rfl
  | none =>
    rw [own] at done
    cases done
    exact .inr ⟨rfl, rfl⟩

end ScopeForest

/-! ### Laying scopes grows the forest -/

namespace Bind
open ScopeForest
variable {part part' : NodeId → Prop} {inside : Option ScopeId}

/-- Whatever comes of a step inside a scope, the forest has grown by scopes at nodes of `part`,
and only that scope and newer ones were added to. -/
def Grows (m : Bind α) (inside : Option ScopeId) (part : NodeId → Prop) : Prop :=
  ∀ ⦃low : Nat⦄ ⦃f : ScopeForest⦄, low ≤ f.scopes.size → (∀ s ∈ inside, low ≤ s) → f.Has inside →
    Grown low part f (m.run f).2

theorem grows_pure (a : α) (inside : Option ScopeId) (part : NodeId → Prop) :
    (pure a : Bind α).Grows inside part :=
  fun _ _ _ _ _ => .same

theorem grows_throw (e : BindError) (inside : Option ScopeId) (part : NodeId → Prop) :
    (throw e : Bind α).Grows inside part :=
  fun _ _ _ _ _ => .same

theorem Grows.mono {m : Bind α} (h : m.Grows inside part) (sub : ∀ n, part n → part' n) :
    m.Grows inside part' :=
  fun _ _ le new has => (h le new has).mono sub

theorem Grows.bind {m : Bind α} {k : α → Bind β} (first : m.Grows inside part)
    (second : ∀ a, (k a).Grows inside part) : (m >>= k).Grows inside part := by
  intro low f le new has
  have grown := first le new has
  rw [run_bind]
  cases run : m.run f with
  | mk result g =>
    rw [run] at grown
    cases result with
    | error e => exact grown
    | ok a => exact grown.trans (second a (Nat.le_trans le grown.size_le) new (grown.has has))

theorem grows_declare (s : ScopeId) (d : Decl) (part : NodeId → Prop) :
    (declare s d).Grows (some s) part := by
  intro low f _ new has
  unfold declare
  rw [ExceptT.run_mk]
  cases done : f.declare s d.name d.node d.kind with
  | error e => exact .same
  | ok result =>
    obtain ⟨v, f'⟩ := result
    rcases of_declare done with rfl | ⟨own, rfl⟩
    · exact .same
    · exact .addVar .same (new s rfl) (has s rfl) own

theorem grows_declareAll (s : ScopeId) (ds : List (Except BindError Decl)) (part : NodeId → Prop) :
    (declareAll s ds).Grows (some s) part := by
  induction ds with
  | nil => exact grows_pure () _ _
  | cons d ds ih =>
    cases d with
    | error e => exact grows_throw e _ _
    | ok d => exact (grows_declare s d part).bind fun _ => ih

theorem grows_each {visit : NodeId → ScopeId → Bind Unit} {s : ScopeId} {ns : List NodeId}
    (visits : ∀ n ∈ ns, (visit n s).Grows (some s) part) : (each visit s ns).Grows (some s) part := by
  induction ns with
  | nil => exact grows_pure () _ _
  | cons n ns ih =>
    exact (visits n (by simp)).bind fun _ => ih fun n' h => visits n' (by simp [h])

/-- Entering a node opens a scope there, and then stays inside the scope opened. -/
theorem grows_enter {kind : ScopeKind} {root : NodeId} {parent : Option ScopeId}
    {decls : List (Except BindError Decl)} {inside : ScopeId → Bind Unit}
    (inner : ∀ s, (inside s).Grows (some s) part) (here : part root) :
    (enter kind root parent decls inside).Grows parent part := by
  intro low f le new has
  have rest : Grows (do declareAll f.scopes.size decls; inside f.scopes.size; return f.scopes.size)
      (some f.scopes.size) part :=
    (grows_declareAll _ decls part).bind fun _ => (inner _).bind fun _ => grows_pure _ _ _
  have opened : Grown low part f (f.openScope kind root parent).2 := .openScope .same here new has
  refine opened.trans (rest (Nat.le_trans le opened.size_le) (fun s hs => ?_) fun s hs => ?_)
  · rw [← Option.some.inj hs]
    exact le
  · rw [← Option.some.inj hs, size_openScope]
    exact Nat.lt_succ_self _

end Bind

namespace Tree
variable {t : Tree} {visit : NodeId → ScopeId → Bind Unit}

/-- A node and what is below it. -/
def Subtree (t : Tree) (n m : NodeId) : Prop := m = n ∨ t.Below n m

theorem Below.of_subtree {n c m : NodeId} (hc : c ∈ t.children n) (h : t.Subtree c m) :
    t.Below n m := by
  rcases h with rfl | below
  · exact .child hc
  · exact .deeper hc below

section Steps
variable (visits : ∀ n s, (visit n s).Grows (some s) (t.Subtree n))
include visits

theorem grows_children (n : NodeId) (s : ScopeId) :
    (t.bindChildren visit n s).Grows (some s) (t.Below n) :=
  Bind.grows_each fun c hc => (visits c s).mono fun _ => .of_subtree hc

/-- The body of a function is below it, and so is what is in the body. -/
theorem grows_body {f body : NodeId} (hb : t.functionBody? f = some body) (s : ScopeId) :
    (do let _ ← Bind.enter .body body (some s) (t.bodyDecls body) (t.bindChildren visit body) :
      Bind Unit).Grows (some s) (t.Below f) := by
  have mem : body ∈ t.children f := List.mem_of_getElem? hb
  have inner (s : ScopeId) := (grows_children visits body s).mono
    fun _ below => Below.deeper mem below
  exact (Bind.grows_enter inner (.child mem)).bind fun _ => Bind.grows_pure () _ _

theorem grows_bindFunction (f : NodeId) (parent : Option ScopeId) :
    (t.bindFunction visit f parent).Grows parent (t.Subtree f) := by
  unfold bindFunction
  split
  · next hb =>
    exact Bind.grows_enter (fun s => (grows_body visits hb s).mono fun _ => .inr) (.inl rfl)
  · exact Bind.grows_throw _ _ _

theorem grows_bindStep (n : NodeId) (s : ScopeId) :
    (t.bindStep visit n s).Grows (some s) (t.Subtree n) := by
  have children (s : ScopeId) : (t.bindChildren visit n s).Grows (some s) (t.Subtree n) :=
    (grows_children visits n s).mono fun _ => .inr
  have opened (kind : ScopeKind) (decls : List (Except BindError Decl)) :
      (do let _ ← Bind.enter kind n (some s) decls (t.bindChildren visit n) : Bind Unit).Grows
        (some s) (t.Subtree n) :=
    (Bind.grows_enter children (.inl rfl)).bind fun _ => Bind.grows_pure () _ _
  unfold bindStep
  split
  · exact (grows_bindFunction visits n (some s)).bind fun _ => Bind.grows_pure () _ _
  · exact opened .block (t.lexical n)
  · exact opened .block (t.header n)
  · exact opened .block (t.header n)
  · exact opened .block (t.header n)
  · exact opened .handler [t.caught n]
  · exact children s

end Steps

/-- At every depth, going through a program inside a scope grows the forest at the nodes it goes
through. -/
theorem grows_bind (t : Tree) (n : NodeId) (s : ScopeId) :
    (t.bind n s).Grows (some s) (t.Subtree n) := by
  have all (depth : Nat) : ∀ n s,
      (descendTo t.bindStep (fun _ => pure ()) depth n s).Grows (some s) (t.Subtree n) := by
    induction depth with
    | zero => exact fun _ s => Bind.grows_pure () _ _
    | succ depth ih => exact grows_bindStep ih
  exact all _ n s

theorem grows_bindProgram (t : Tree) (root : NodeId) :
    (t.bindProgram root).Grows none (t.Subtree root) := by
  unfold bindProgram
  split
  · exact Bind.grows_enter
      (fun s => (grows_children t.grows_bind root s).mono fun _ => .inr) (.inl rfl)
  · exact grows_bindFunction t.grows_bind root none
  · exact Bind.grows_throw _ _ _

end Tree

namespace ScopeForest

/-- Laying scopes over a program grows the forest, whether or not it succeeds. No scope that was
there is added to. -/
theorem grown_create (f : ScopeForest) (t : Tree) (root : NodeId) :
    Grown f.scopes.size (t.Subtree root) f (f.create t root).2 :=
  t.grows_bindProgram root (Nat.le_refl _) (by simp) (fun _ h => by cases h)

/-! ### Links in agreement -/

/-- Besides agreeing, links are listed once and in order, and a node leads to the last scope
opened there. -/
structure Arena (f : ScopeForest) : Prop extends f.Coherent where
  children_nodup : ∀ s : Nat, (f.scope s).children.Nodup
  vars_ascend : ∀ s : Nat, (f.varsOf s).Pairwise (· < ·)
  at_iff : ∀ (n : NodeId) (s : Nat), f.at? n = some s ↔
    (s < f.scopes.size ∧ (f.scope s).root = n) ∧
      ∀ r < f.scopes.size, (f.scope r).root = n → r ≤ s

namespace Arena
variable {f : ScopeForest}

theorem empty : ({} : ScopeForest).Arena where
  toCoherent := .empty
  children_nodup s := by simp [scope, scope?]
  vars_ascend s := by simp [varsOf, scope, scope?, Table.values, Table.empty]
  at_iff n s := by simp [at?]

/-- A node leads to the scope opened there, and every other node where it led before. -/
theorem at_iff_openScope (h : f.Arena) {kind : ScopeKind} {root : NodeId} {parent : Option ScopeId}
    (has : f.Has parent) (n : NodeId) (s : Nat) :
    (f.openScope kind root parent).2.at? n = some s ↔
      (s < (f.openScope kind root parent).2.scopes.size ∧
        ((f.openScope kind root parent).2.scope s).root = n) ∧
      ∀ r < (f.openScope kind root parent).2.scopes.size,
        ((f.openScope kind root parent).2.scope r).root = n → r ≤ s := by
  rw [at?_openScope, size_openScope]
  by_cases here : n = root
  · rw [if_pos here, Option.some.injEq]
    constructor
    · rintro rfl
      refine ⟨⟨Nat.lt_succ_self _, ?_⟩, fun r hr _ => Nat.le_of_lt_succ hr⟩
      rw [root_openScope has, if_pos rfl, here]
    · rintro ⟨⟨lt, _⟩, last⟩
      have := last f.scopes.size (Nat.lt_succ_self _) (by rw [root_openScope has, if_pos rfl, here])
      omega
  · have same (r : Nat) : (r < f.scopes.size + 1 ∧
        ((f.openScope kind root parent).2.scope r).root = n) ↔
        (r < f.scopes.size ∧ (f.scope r).root = n) := by
      rw [root_openScope has]
      by_cases last : r = f.scopes.size
      · simp [last, Ne.symm here]
      · have : r < f.scopes.size ↔ r < f.scopes.size + 1 := by omega
        rw [if_neg last, this]
    rw [if_neg here, h.at_iff, same s]
    refine and_congr_right fun _ => ⟨fun last r hr at_n => ?_, fun last r hr at_n => ?_⟩
    · obtain ⟨lt, old⟩ := (same r).mp ⟨hr, at_n⟩
      exact last r lt old
    · obtain ⟨lt, new⟩ := (same r).mpr ⟨hr, at_n⟩
      exact last r lt new

theorem openScope (h : f.Arena) {kind : ScopeKind} {root : NodeId} {parent : Option ScopeId}
    (has : f.Has parent) : (f.openScope kind root parent).2.Arena where
  toCoherent := h.toCoherent.openScope has
  children_nodup s := by
    rw [scope_openScope has]
    split
    · exact List.nodup_nil
    · split
      · have fresh : f.scopes.size ∉ (f.scope s).children := fun listed =>
          Nat.lt_irrefl _ ((h.mem_children s _).mp listed).1
        rw [List.nodup_append]
        refine ⟨h.children_nodup s, by simp, ?_⟩
        rintro c hc c' hc' rfl
        exact fresh (List.mem_singleton.mp hc' ▸ hc)
      · exact h.children_nodup s
  vars_ascend s := by
    rw [varsOf, table_openScope has]
    exact h.vars_ascend s
  at_iff := h.at_iff_openScope has

theorem addVar (h : f.Arena) {s : Nat} {name : String} {node : NodeId} {kind : VarKind}
    (hs : s < f.scopes.size) (new : f.ownVar? s name = none) :
    (f.addVar s name node kind).2.Arena where
  toCoherent := h.toCoherent.addVar hs new
  children_nodup r := by
    rw [scope_addVar]
    exact h.children_nodup r
  vars_ascend r := by
    rw [varsOf, table_addVar hs]
    split
    · -- The new variable comes after all others, in its own table too.
      have last : ∀ v ∈ f.varsOf r, v < f.vars.size := fun v hv => (h.mem_varsOf_iff.mp hv).1
      rw [Table.values, Table.entries_push, List.map_append, List.pairwise_append]
      refine ⟨h.vars_ascend r, by simp, fun v hv w hw => ?_⟩
      obtain rfl := List.mem_singleton.mp hw
      exact last v hv
    · exact h.vars_ascend r
  at_iff n r := by
    have roots (r : Nat) : ((f.addVar s name node kind).2.scope r).root = (f.scope r).root := by
      rw [scope_addVar]
    simp only [roots, size_addVar]
    exact h.at_iff n r

theorem grown {low : Nat} {part : NodeId → Prop} {base : ScopeForest} (h : base.Arena)
    (grown : Grown low part base f) : f.Arena := by
  induction grown with
  | same => exact h
  | openScope _ _ _ has ih => exact ih.openScope has
  | addVar _ _ hs new ih => exact ih.addVar hs new

end Arena
end ScopeForest

/-! ### Programs -/

namespace Program

/-- The programs that can be made: nodes are added and put below others, scopes are opened below
scopes that are there, names are declared in them, and scopes are laid over parts of the
program, whether or not that succeeds. -/
inductive Made : Program → Prop
  | new : Made {}
  | add {p : Program} (kind : Kind) (children : List NodeId) :
      Made p → Made { p with tree := (p.tree.add kind children).2 }
  | adopt {p : Program} (parent child : NodeId) :
      Made p → Made { p with tree := p.tree.adopt parent child }
  | openScope {p : Program} (kind : ScopeKind) (root : NodeId) {parent : Option ScopeId} :
      Made p → p.scopes.Has parent →
      Made { p with scopes := (p.scopes.openScope kind root parent).2 }
  | declare {p : Program} {s : ScopeId} {name : String} {node : NodeId} {kind : VarKind} {v : VarId}
      {f : ScopeForest} :
      Made p → s < p.scopes.scopes.size → p.scopes.declare s name node kind = .ok (v, f) →
      Made { p with scopes := f }
  | createScopes {p : Program} (root : NodeId) : Made p → Made (p.createScopes root).2

theorem Made.arena {p : Program} (made : p.Made) : p.scopes.Arena := by
  induction made with
  | new => exact .empty
  | add _ _ _ ih => exact ih
  | adopt _ _ _ ih => exact ih
  | openScope _ _ _ has ih => exact ih.openScope has
  | declare _ hs done ih =>
    rcases ScopeForest.of_declare done with rfl | ⟨new, rfl⟩
    · exact ih
    · exact ih.addVar hs new
  | @createScopes p root _ ih => exact ih.grown (p.scopes.grown_create p.tree root)

/-- **The links of a forest agree.** In every program that can be made:

- a scope lies in another if and only if that one lists it, then once, and the outer scope is
  the older one;
- a name has a variable in a scope if and only if there is a variable that says so;
- the table of a scope lists variables in the order they were created, each once;
- a node leads to the last scope that was opened there, and to none if there is none. -/
theorem links_agree (p : Program) (made : p.Made) :
    (∀ s q : Nat, ((p.scopes.scope s).parent = some q ↔ s ∈ (p.scopes.scope q).children) ∧
      ((p.scopes.scope s).parent = some q →
        (p.scopes.scope q).children.count s = 1 ∧ q < s ∧ s < p.scopes.scopes.size)) ∧
    (∀ (s : Nat) (name : String) (v : Nat), p.scopes.ownVar? s name = some v ↔
      ∃ x, p.scopes.var? v = some x ∧ x.scope = s ∧ x.name = name) ∧
    (∀ s : Nat, (p.scopes.varsOf s).Pairwise (· < ·)) ∧
    ∀ (n : NodeId) (s : Nat), p.scopes.at? n = some s ↔
      (s < p.scopes.scopes.size ∧ (p.scopes.scope s).root = n) ∧
        ∀ r < p.scopes.scopes.size, (p.scopes.scope r).root = n → r ≤ s := by
  have arena := made.arena
  have listed (s q : Nat) : (p.scopes.scope s).parent = some q ↔
      s ∈ (p.scopes.scope q).children := by
    rw [arena.mem_children]
    exact ⟨fun around => ⟨ScopeForest.lt_size_of_parent around, around⟩, And.right⟩
  refine ⟨fun s q => ⟨listed s q, fun around => ⟨?_, arena.outward s q around,
    ScopeForest.lt_size_of_parent around⟩⟩, fun s name v => ?_, arena.vars_ascend, arena.at_iff⟩
  · rw [(arena.children_nodup q).count, if_pos ((listed s q).mp around)]
  · rw [arena.ownVar?_eq_some_iff]
    constructor
    · rintro ⟨lt, scope, named⟩
      have there : p.scopes.var? v = some (p.scopes.var v) := by
        simp [ScopeForest.var, ScopeForest.var?, lt]
      exact ⟨_, there, scope, named⟩
    · rintro ⟨x, there, scope, named⟩
      have same : p.scopes.var v = x := by rw [ScopeForest.var, there, Option.getD_some]
      obtain ⟨lt, _⟩ := Array.getElem?_eq_some_iff.mp there
      exact ⟨lt, same ▸ scope, same ▸ named⟩

/-- `function f() { let x; let x; }` with scopes laid over it twice, in vain both times, and one
more scope opened at its body by hand. -/
def retried : Program :=
  let tree := ((((((((({} : Tree).add (.name "x") []).2.add .letDecl [0]).2.add (.name "x") []).2.add
    .letDecl [2]).2.add .block [1, 3]).2.add (.name "f") []).2.add .paramList []).2.add .function
    [5, 6, 4]).2
  let p := ((Program.createScopes { tree } 7).2.createScopes 7).2
  { p with scopes := (p.scopes.openScope .block 4 (some 3)).2 }

theorem made_retried : retried.Made := by
  refine .openScope .block 4 (.createScopes 7 (.createScopes 7 ?_)) ?_
  · exact .add _ _ (.add _ _ (.add _ _ (.add _ _ (.add _ _ (.add _ _ (.add _ _ (.add _ _ .new)))))))
  · intro s hs
    cases hs
    decide

theorem links_agree_retried :
    retried.Made ∧ retried.scopes.scopes.size = 5 ∧
      (retried.scopes.scope 4).parent = some 3 ∧ 4 ∈ (retried.scopes.scope 3).children ∧
      (retried.scopes.scope 3).children.count 4 = 1 ∧
      retried.scopes.ownVar? 3 "x" = some 1 ∧ (∃ x, retried.scopes.var? 1 = some x ∧ x.scope = 3) ∧
      retried.scopes.at? 4 = some 4 ∧ ∀ r < 5, (retried.scopes.scope r).root = 4 → r ≤ 4 := by
  obtain ⟨links, owns, _, roots⟩ := links_agree retried made_retried
  have around : (retried.scopes.scope 4).parent = some 3 := rfl
  have own : retried.scopes.ownVar? 3 "x" = some 1 := rfl
  have here : retried.scopes.at? 4 = some 4 := rfl
  obtain ⟨x, there, scope, _⟩ := (owns 3 "x" 1).mp own
  exact ⟨made_retried, rfl, around, (links 4 3).1.mp around, ((links 4 3).2 around).1, own,
    ⟨x, there, scope⟩, here, ((roots 4 4).mp here).2⟩

end Program
end Liveness
