import Liveness.Proofs.Tree.Shape
import Liveness.Proofs.Scope.Acyclic

/-! Scopes as the text has them.

Which nodes have a scope and which names they declare can be said of the text alone, without
opening a scope: the root of a program, and below it functions, blocks, loops with a header
and catch clauses. A name that a construct declares is found where it stands, except that a
body owns every `var` in it that is not in a nested function. That the lists of declarations
hold these names, in this order, is shown here; faults in them are left out, since a program
with a fault has no scopes. -/
namespace Liveness

namespace Kind

/-- A construct that has a scope wherever it stands. -/
def opensScope : Kind → Bool
  | function | block | forLoop | forIn | forOf | catchClause => true
  | _ => false

theorem of_opensScope {k : Kind} (h : k.opensScope = true) :
    k = .function ∨ k = .block ∨ k = .forLoop ∨ k = .forIn ∨ k = .forOf ∨ k = .catchClause := by
  unfold opensScope at h
  split at h <;> simp at h ⊢

theorem isFunction_iff {k : Kind} : k.isFunction = true ↔ k = .function := by
  cases k <;> simp [isFunction]

theorem opensScope_of_isName {k : Kind} (h : k.isName = true) : k.opensScope = false := by
  cases k with
  | name _ => rfl
  | _ => cases h

end Kind

namespace Tree
variable {t : Tree}

theorem isFunction_iff {n : NodeId} : t.isFunction n = true ↔ t.kind n = .function :=
  Kind.isFunction_iff

/-! ### Nodes with a scope -/

/-- Whether a node has a scope in the program at `root`. -/
def opens (t : Tree) (root n : NodeId) : Bool :=
  (t.ancestors n).contains root && (n == root || (t.kind n).opensScope)

/-- The nearest node at or above a node that has a scope. -/
def opener? (t : Tree) (root n : NodeId) : Option NodeId := (t.ancestors n).find? (t.opens root)

theorem opens_iff {root n : NodeId} :
    t.opens root n = true ↔ root ∈ t.ancestors n ∧ (n = root ∨ (t.kind n).opensScope = true) := by
  simp [opens]

theorem IsTree.opens_root (h : t.IsTree) (root : NodeId) : t.opens root root = true :=
  opens_iff.mpr ⟨h.mem_ancestors_self root, .inl rfl⟩

theorem IsTree.opener?_eq (h : t.IsTree) (root n : NodeId) :
    t.opener? root n = if t.opens root n then some n else (t.parent n).bind (t.opener? root) :=
  h.find?_ancestors (t.opens root) n

theorem IsTree.opener?_of_opens (h : t.IsTree) {root n : NodeId} (opens : t.opens root n = true) :
    t.opener? root n = some n := by
  rw [h.opener?_eq, if_pos opens]

/-- Around the program there are no scopes. -/
theorem IsTree.opener?_outside (h : t.IsTree) {root n : NodeId} (outside : root ∉ t.ancestors n) :
    t.opener? root n = none := by
  rw [opener?, List.find?_eq_none]
  intro m hm opens
  exact outside (h.mem_ancestors_trans (opens_iff.mp opens).1 hm)

theorem IsTree.opener?_above_root (h : t.IsTree) (root : NodeId) :
    (t.parent root).bind (t.opener? root) = none := by
  cases hp : t.parent root with
  | none => rfl
  | some p =>
    exact h.opener?_outside (h.not_mem_ancestors_of_child ((h.parent_iff p root).mp hp))

/-- Everywhere in the program there is a scope around. -/
theorem IsTree.exists_opener (h : t.IsTree) {root n : NodeId} (inside : root ∈ t.ancestors n) :
    ∃ m, t.opener? root n = some m := by
  obtain ⟨m, hm, _⟩ := h.exists_nearest inside (h.opens_root root)
  exact ⟨m, hm⟩

/-! ### Names declared -/

/-- The names that a declaration or a list of parameters holds. -/
def namesIn (t : Tree) (n : NodeId) : List String := (t.children n).filterMap t.name?

/-- The names that `var` declares anywhere in a body, though not in nested functions. -/
def varNames (t : Tree) (body : NodeId) : List String :=
  ((t.preorder body).filter fun n =>
    t.kind n == .varDecl && t.enclosingFunction? n == t.enclosingFunction? body).flatMap t.namesIn

/-- The names that a node declares if it is a `let` or `const`. -/
def letNames (t : Tree) (n : NodeId) : List String :=
  if t.kind n = .letDecl ∨ t.kind n = .constDecl then t.namesIn n else []

/-- The names that the statements directly in a block declare: those of `let` and `const`, and
of functions that have one. -/
def statementNames (t : Tree) (block : NodeId) : List String :=
  (t.children block).flatMap fun n =>
    if t.kind n = .function ∧ t.functionTitle n ≠ "" then [t.functionTitle n] else t.letNames n

/-- The names that a `let` or `const` in the header of a loop declares. -/
def headerNames (t : Tree) (loop : NodeId) : List String :=
  (t.child? loop 0).toList.flatMap t.letNames

/-- The names that a node with a scope declares in it, in the order of the text. -/
def declaredNames (t : Tree) (n : NodeId) : List String :=
  match t.kind n with
  | .function => (t.functionParams? n).toList.flatMap t.namesIn
  | .script => t.varNames n ++ t.statementNames n
  | .block => if t.isFunctionBlock n then t.varNames n ++ t.statementNames n else t.statementNames n
  | .forLoop | .forIn | .forOf => t.headerNames n
  | .catchClause => (t.child? n 0).toList.filterMap t.name?
  | _ => []

/-- The kind of the scope of a node. -/
def scopeKind (t : Tree) (n : NodeId) : ScopeKind :=
  match t.kind n with
  | .function => .function
  | .script => .global
  | .block => if t.isFunctionBlock n then .body else .block
  | .catchClause => .handler
  | _ => .block

theorem scopeKind_eq_function_iff {n : NodeId} :
    t.scopeKind n = .function ↔ t.kind n = .function := by
  unfold scopeKind
  split <;> simp_all
  split <;> simp

/-! ### The layout of functions -/

/-- A name without anything below it. -/
def isBareName (t : Tree) (n : NodeId) : Bool := (t.kind n).isName && (t.children n).isEmpty

/-- A function has a bare name, a list of bare names for its parameters, and a block. -/
def isPlainFunction (t : Tree) (f : NodeId) : Bool :=
  match t.children f with
  | [name, params, body] =>
    t.isBareName name && t.kind params == .paramList && (t.children params).all t.isBareName &&
      t.kind body == .block
  | _ => false

/-- All functions are laid out as they should be. -/
def PlainFunctions (t : Tree) : Prop :=
  ∀ f < t.size, t.isFunction f = true → t.isPlainFunction f = true

instance (t : Tree) : Decidable t.PlainFunctions :=
  inferInstanceAs (Decidable (∀ f < t.size, t.isFunction f = true → t.isPlainFunction f = true))

/-- The parts of a function laid out as it should be. -/
structure FunctionParts (t : Tree) (f name params body : NodeId) : Prop where
  function : t.kind f = .function
  children : t.children f = [name, params, body]
  name_bare : t.isBareName name = true
  params_list : t.kind params = .paramList
  params_bare : ∀ c ∈ t.children params, t.isBareName c = true
  body_block : t.kind body = .block

theorem PlainFunctions.parts (plain : t.PlainFunctions) {f : NodeId} (hf : t.kind f = .function) :
    ∃ name params body, t.FunctionParts f name params body := by
  have lt : f < t.size := by
    rcases Nat.lt_or_ge f t.size with lt | le
    · exact lt
    · rw [kind, node_of_size_le le] at hf
      cases hf
  have laid := plain f lt (isFunction_iff.mpr hf)
  unfold isPlainFunction at laid
  split at laid
  · next name params body children =>
    simp only [Bool.and_eq_true, beq_iff_eq, List.all_eq_true] at laid
    obtain ⟨⟨⟨named, list⟩, bare⟩, block⟩ := laid
    exact ⟨name, params, body, hf, children, named, list, bare, block⟩
  · cases laid

namespace FunctionParts
variable {f name params body : NodeId}

theorem params? (h : t.FunctionParts f name params body) : t.functionParams? f = some params := by
  rw [functionParams?, child?, h.children]
  rfl

theorem body? (h : t.FunctionParts f name params body) : t.functionBody? f = some body := by
  rw [functionBody?, child?, h.children]
  rfl

theorem body_mem (h : t.FunctionParts f name params body) : body ∈ t.children f := by
  simp [h.children]

theorem parent_body (tree : t.IsTree) (h : t.FunctionParts f name params body) :
    t.parent body = some f :=
  tree.parent_of_child h.body_mem

theorem isFunctionBlock_body (tree : t.IsTree) (h : t.FunctionParts f name params body) :
    t.isFunctionBlock body = true := by
  simp [isFunctionBlock, h.body_block, h.parent_body tree, h.body?, isFunction_iff.mpr h.function]

theorem inside_body (tree : t.IsTree) (h : t.FunctionParts f name params body) {root : NodeId}
    (inside : root ∈ t.ancestors f) : root ∈ t.ancestors body :=
  tree.mem_ancestors_of_parent (h.parent_body tree) inside

theorem opens_self (h : t.FunctionParts f name params body) {root : NodeId}
    (inside : root ∈ t.ancestors f) : t.opens root f = true := by
  rw [opens_iff, h.function]
  exact ⟨inside, .inr rfl⟩

theorem opens_body (tree : t.IsTree) (h : t.FunctionParts f name params body) {root : NodeId}
    (inside : root ∈ t.ancestors f) : t.opens root body = true := by
  rw [opens_iff, h.body_block]
  exact ⟨h.inside_body tree inside, .inr rfl⟩

/-- Nothing but the name itself is at or below a bare name. -/
theorem eq_of_bare (tree : t.IsTree) {n m : NodeId} (bare : t.isBareName n = true)
    (above : n ∈ t.ancestors m) : m = n := by
  rcases tree.mem_ancestors_iff_child.mp above with same | ⟨c, hc, _⟩
  · exact same
  · simp only [isBareName, Bool.and_eq_true, List.isEmpty_iff] at bare
    rw [bare.2] at hc
    cases hc

/-- The scopes in a function are in its body. -/
theorem body_above (tree : t.IsTree) (h : t.FunctionParts f name params body) {root m : NodeId}
    (inside : root ∈ t.ancestors f) (opens : t.opens root m = true) (above : f ∈ t.ancestors m)
    (other : m ≠ f) : body ∈ t.ancestors m := by
  obtain ⟨below, opening⟩ := opens_iff.mp opens
  have opening : (t.kind m).opensScope = true := by
    rcases opening with rfl | opening
    · exact absurd (tree.ancestors_antisymm inside above) other
    · exact opening
  have unopened : ∀ n, t.isBareName n = true → n ∉ t.ancestors m := by
    intro n bare at_n
    obtain rfl := eq_of_bare tree bare at_n
    rw [isBareName, Bool.and_eq_true] at bare
    rw [Kind.opensScope_of_isName bare.1] at opening
    cases opening
  rcases tree.mem_ancestors_iff_child.mp above with rfl | ⟨c, hc, between⟩
  · exact absurd rfl other
  · rw [h.children] at hc
    simp only [List.mem_cons, List.not_mem_nil, or_false] at hc
    rcases hc with rfl | rfl | rfl
    · exact absurd between (unopened c h.name_bare)
    · rcases tree.mem_ancestors_iff_child.mp between with rfl | ⟨p, hp, at_p⟩
      · rw [h.params_list] at opening
        cases opening
      · exact absurd at_p (unopened p (h.params_bare p hp))
    · exact between

end FunctionParts

theorem isFunctionBlock_eq_false {n p : NodeId} (hp : t.parent n = some p)
    (ordinary : t.kind p ≠ .function) : t.isFunctionBlock n = false := by
  have : t.isFunction p = false := by
    rw [Bool.eq_false_iff]
    exact fun h => ordinary (isFunction_iff.mp h)
  simp [isFunctionBlock, hp, this]

/-! ### Hoisting -/

/-- Whatever is in a function has another function around it than what is around the
function. -/
theorem IsTree.enclosingFunction?_inside (h : t.IsTree) {f m : NodeId} (hf : t.isFunction f = true)
    (above : f ∈ t.ancestors m) :
    t.enclosingFunction? m ≠ (t.parent f).bind t.enclosingFunction? := by
  intro same
  obtain ⟨g, found, below⟩ := h.exists_nearest above hf
  rw [show t.enclosingFunction? m = some g from found] at same
  obtain ⟨p, hp, around⟩ := Option.bind_eq_some_iff.mp same.symm
  have g_above : g ∈ t.ancestors p := List.mem_of_find?_eq_some around
  exact h.not_mem_ancestors_of_child ((h.parent_iff p f).mp hp) (h.mem_ancestors_trans below g_above)

/-- The `var` declarations of a node that belong to what is around it are those that the walk
downward finds with the same function around them. -/
theorem IsTree.filter_preorder (h : t.IsTree) (n : NodeId) (around : Option NodeId)
    (hn : (t.parent n).bind t.enclosingFunction? = around) :
    (t.preorder n).filter (fun m => t.kind m == .varDecl && t.enclosingFunction? m == around) =
      t.varDecls n := by
  induction n using h.acyclic.induct with
  | _ n ih =>
    by_cases hf : t.kind n = .function
    · have none : t.varDecls n = [] := by
        rw [varDecls_eq h.acyclic, varDeclsStep, hf]
      rw [none, List.filter_eq_nil_iff]
      intro m hm
      have other := h.enclosingFunction?_inside (isFunction_iff.mpr hf) (h.mem_preorder_iff.mp hm)
      rw [hn] at other
      simp [other]
    · have here : t.enclosingFunction? n = around := by
        rw [h.enclosingFunction?_eq, if_neg (fun f => hf (isFunction_iff.mp f)), hn]
      have inner : ((t.children n).flatMap t.preorder).filter
          (fun m => t.kind m == .varDecl && t.enclosingFunction? m == around) =
          (t.children n).flatMap t.varDecls := by
        rw [List.filter_flatMap]
        refine flatMap_congr fun c hc => ih c hc ?_
        rw [h.parent_of_child hc]
        exact here
      rw [preorder_eq h.acyclic, List.filter_cons, inner, varDecls_eq h.acyclic, varDeclsStep, here]
      split <;> simp_all

/-! ### Lists of declarations -/

/-- The names of declarations, faults left out. -/
def declNames (decls : List (Except BindError Decl)) : List String :=
  decls.filterMap fun d => d.toOption.map Decl.name

theorem name_binding (t : Tree) (kind : VarKind) (expected : Expectation) (n : NodeId) :
    (t.binding kind expected n).toOption.map Decl.name = t.name? n := by
  unfold binding
  cases t.name? n <;> rfl

theorem declNames_map_binding (t : Tree) (kind : VarKind) (expected : Expectation)
    (ns : List NodeId) : declNames (ns.map (t.binding kind expected)) = ns.filterMap t.name? := by
  rw [declNames, List.filterMap_map]
  congr 1
  funext n
  exact t.name_binding kind expected n

theorem declNames_flatMap (f : NodeId → List (Except BindError Decl)) (ns : List NodeId) :
    declNames (ns.flatMap f) = ns.flatMap fun n => declNames (f n) :=
  List.filterMap_flatMap

theorem declNames_bindings (t : Tree) (kind : VarKind) (n : NodeId) :
    declNames (t.bindings kind n) = t.namesIn n :=
  t.declNames_map_binding kind .bindingName (t.children n)

theorem declNames_parameters (t : Tree) (params : NodeId) :
    declNames (t.parameters params) = t.namesIn params :=
  t.declNames_map_binding .param .parameterName (t.children params)

theorem declNames_hoisted (h : t.IsTree) {body : NodeId} (block : t.kind body ≠ .varDecl) :
    declNames (t.hoisted body) = t.varNames body := by
  have around : ∀ c ∈ t.children body,
      (t.parent c).bind t.enclosingFunction? = t.enclosingFunction? body := by
    intro c hc
    rw [h.parent_of_child hc]
    rfl
  rw [hoisted, varNames, if_neg block, List.nil_append, declNames_flatMap, preorder_eq h.acyclic,
    List.filter_cons, if_neg (by simp [block]), List.filter_flatMap,
    flatMap_congr fun c hc => h.filter_preorder c _ (around c hc)]
  exact flatMap_congr fun n _ => t.declNames_bindings .plain n

/-- A function with a name among the statements of a block or script declares it there. -/
theorem isFunctionDeclaration_eq {n p : NodeId} (hf : t.kind n = .function)
    (hp : t.parent n = some p) (statements : t.kind p = .block ∨ t.kind p = .script) :
    t.isFunctionDeclaration n = (t.functionTitle n != "") := by
  have function : t.isFunction n = true := isFunction_iff.mpr hf
  unfold isFunctionDeclaration functionTitle
  rw [function, hp]
  rcases statements with hk | hk <;> rw [Option.map_some, hk] <;>
    cases (t.functionName? n).bind t.name? <;> simp

theorem declNames_lexical (h : t.IsTree) {block : NodeId}
    (statements : t.kind block = .block ∨ t.kind block = .script) :
    declNames (t.lexical block) = t.statementNames block := by
  rw [lexical, statementNames, declNames_flatMap]
  refine flatMap_congr fun n hn => ?_
  split
  · next hk => simp [letNames, hk, declNames_bindings]
  · next hk => simp [letNames, hk, declNames_bindings]
  · next hk =>
    rw [isFunctionDeclaration_eq hk (h.parent_of_child hn) statements]
    by_cases anonymous : t.functionTitle n = ""
    · simp [anonymous, declNames, letNames, hk]
    · rw [if_pos (by simpa using anonymous), declNames_map_binding, if_pos ⟨hk, anonymous⟩]
      unfold functionTitle at anonymous ⊢
      cases hm : t.functionName? n with
      | none => simp [hm] at anonymous
      | some m => cases hx : t.name? m <;> simp_all
  · next hl hc hf =>
    have silent : t.letNames n = [] := if_neg fun h => h.elim hl hc
    rw [if_neg fun h => hf h.1, silent]
    rfl

theorem declNames_bodyDecls (h : t.IsTree) {body : NodeId}
    (statements : t.kind body = .block ∨ t.kind body = .script) :
    declNames (t.bodyDecls body) = t.varNames body ++ t.statementNames body := by
  have block : t.kind body ≠ .varDecl := by rcases statements with hk | hk <;> simp [hk]
  rw [bodyDecls, declNames, List.filterMap_append, ← declNames_hoisted h block,
    ← declNames_lexical h statements]
  rfl

theorem declNames_header (t : Tree) (loop : NodeId) :
    declNames (t.header loop) = t.headerNames loop := by
  unfold header headerNames
  cases t.child? loop 0 with
  | none => rfl
  | some n =>
    rw [Option.toList_some, List.flatMap_singleton]
    dsimp only
    split
    · next hk => simp [letNames, hk, declNames_bindings]
    · next hk => simp [letNames, hk, declNames_bindings]
    · next hl hc =>
      rw [letNames, if_neg fun h => h.elim hl hc]
      rfl

theorem declNames_caught (t : Tree) (clause : NodeId) :
    declNames [t.caught clause] = (t.child? clause 0).toList.filterMap t.name? := by
  unfold caught
  cases t.child? clause 0 with
  | none => rfl
  | some n => exact t.declNames_map_binding .caught .caughtName [n]

/-! ### Where a step goes -/

/-- The declarations of a construct that has a scope wherever it stands, functions and their
bodies apart. -/
def scopeDecls (t : Tree) (n : NodeId) : List (Except BindError Decl) :=
  match t.kind n with
  | .block => t.lexical n
  | .forLoop | .forIn | .forOf => t.header n
  | .catchClause => [t.caught n]
  | _ => []

section Step
variable {visit : NodeId → ScopeId → Bind Unit} {n : NodeId} {s : ScopeId}

theorem bindStep_of_function (hf : t.kind n = .function) :
    t.bindStep visit n s = (do let _ ← t.bindFunction visit n (some s)) := by
  rw [bindStep, hf]

theorem bindStep_of_opensScope (ordinary : t.kind n ≠ .function)
    (opens : (t.kind n).opensScope = true) (inner : t.isFunctionBlock n = false) :
    t.bindStep visit n s = (do
      let _ ← Bind.enter (t.scopeKind n) n (some s) (t.scopeDecls n) (t.bindChildren visit n)) := by
  unfold bindStep scopeKind scopeDecls
  rcases Kind.of_opensScope opens with hk | hk | hk | hk | hk | hk
  · exact absurd hk ordinary
  all_goals simp [hk, inner]

theorem bindStep_of_not_opensScope (closed : (t.kind n).opensScope = false) :
    t.bindStep visit n s = t.bindChildren visit n s := by
  unfold bindStep
  split <;> simp_all [Kind.opensScope]

theorem declNames_scopeDecls (h : t.IsTree) (ordinary : t.kind n ≠ .function)
    (opens : (t.kind n).opensScope = true) (inner : t.isFunctionBlock n = false) :
    declNames (t.scopeDecls n) = t.declaredNames n := by
  unfold scopeDecls declaredNames
  rcases Kind.of_opensScope opens with hk | hk | hk | hk | hk | hk
  · exact absurd hk ordinary
  · simp [hk, inner, declNames_lexical h (.inl hk)]
  · simp [hk, declNames_header]
  · simp [hk, declNames_header]
  · simp [hk, declNames_header]
  · simp [hk, declNames_caught]

end Step

end Tree
end Liveness
