import Mathlib.Data.List.Pairwise
import Liveness.Program
import Liveness.Proofs.Scope.Clash
import Liveness.Proofs.Scope.WellDeclared

/-! Scopes can be laid over the programs that are well declared.

Each node has its part in whether the work succeeds: it stops the work if a part of it is missing,
if something else than a name stands where it declares one, or if two of its declarations clash. A
node that does not is `Clean`. Going on at a node succeeds if and only if all that is scanned from
there is clean, by induction along the way down, since what happens in one scope has no bearing on
the next. What is left is to read the rules off the lists of declarations, and back. -/
namespace Liveness

namespace Tree
variable {t : Tree} {root : NodeId}

/-! ### Laying scopes -/

/-- A node does not stop the work: its parts are there, names stand where it declares them, and no
two of these clash. -/
structure Clean (t : Tree) (root m : NodeId) : Prop where
  function_parts : t.kind m = .function → 3 ≤ (t.children m).length
  catch_parts : t.kind m = .catchClause → ∃ c, t.child? m 0 = some c
  sound : Sound ((t.received root m).map t.place)

section Clean
variable {m : NodeId}

theorem clean_iff (function_parts : t.kind m = .function → 3 ≤ (t.children m).length)
    (catch_parts : t.kind m = .catchClause → ∃ c, t.child? m 0 = some c) :
    t.Clean root m ↔ Sound ((t.received root m).map t.place) :=
  ⟨fun clean => clean.sound, fun sound => ⟨function_parts, catch_parts, sound⟩⟩

theorem IsTree.clean_script (h : t.IsTree) (hk : t.kind root = .script) :
    t.Clean root root ↔ Sound (t.bodyDecls root) := by
  rw [clean_iff (by simp [hk]) (by simp [hk]), received_of_script hk, List.map_append,
    map_place_varPlaces (by simp [hk]), h.map_place_statementPlaces (.inr hk), bodyDecls]

theorem IsTree.clean_body (h : t.IsTree) (hk : t.kind m = .block)
    (body : t.isFunctionBlock m = true) : t.Clean root m ↔ Sound (t.bodyDecls m) := by
  rw [clean_iff (by simp [hk]) (by simp [hk]), received_of_block hk, if_pos body, List.map_append,
    map_place_varPlaces (by simp [hk]), h.map_place_statementPlaces (.inl hk), bodyDecls]

theorem IsTree.clean_block (h : t.IsTree) (hk : t.kind m = .block)
    (inner : t.isFunctionBlock m = false) : t.Clean root m ↔ Sound (t.lexical m) := by
  rw [clean_iff (by simp [hk]) (by simp [hk]), received_of_block hk, if_neg (by simp [inner]),
    List.nil_append, h.map_place_statementPlaces (.inl hk)]

theorem clean_function {f params body : NodeId} (hf : t.kind f = .function)
    (hp : t.functionParams? f = some params) (hb : t.functionBody? f = some body) :
    t.Clean root f ↔ Sound (t.parameters params) := by
  have parts : 2 < (t.children f).length := (List.getElem?_eq_some_iff.mp hb).1
  have places : ((t.children params).map (·, VarKind.param)).map t.place = t.parameters params :=
    List.map_map
  rw [clean_iff (fun _ => parts) (by simp [hf]), received_of_function hf hp, places]

theorem clean_header (hk : (t.kind m).hasHeader = true) :
    t.Clean root m ↔ Sound (t.header m) := by
  have places : ((t.child? m 0).toList.flatMap t.letPlaces).map t.place = t.header m := by
    unfold header
    cases t.child? m 0 with
    | none => rfl
    | some d =>
      rw [Option.toList_some, List.flatMap_singleton, map_place_letPlaces]
      cases hk : t.kind d <;> simp [hk, Kind.binds?]
  have other {k : Kind} (silent : k.hasHeader = false) : t.kind m ≠ k := by
    rintro rfl
    rw [hk] at silent
    cases silent
  rw [clean_iff (absurd · (other rfl)) (absurd · (other rfl)), received_of_hasHeader hk, places]

theorem clean_catch (hk : t.kind m = .catchClause) : t.Clean root m ↔ Sound [t.caught m] := by
  rw [caught]
  cases hc : t.child? m 0 with
  | none =>
    refine iff_of_false (fun clean => ?_) ?_
    · obtain ⟨c, there⟩ := clean.catch_parts hk
      rw [hc] at there
      cases there
    · rintro ⟨ds, same, _⟩
      cases ds <;> cases same
  | some c =>
    rw [clean_iff (by simp [hk]) fun _ => ⟨c, hc⟩, received_of_catch hk, hc]
    rfl

theorem IsTree.clean_scopeDecls (h : t.IsTree) (ordinary : t.kind m ≠ .function)
    (opens : (t.kind m).opensScope = true) (inner : t.isFunctionBlock m = false) :
    t.Clean root m ↔ Sound (t.scopeDecls m) := by
  unfold scopeDecls
  rcases Kind.of_opensScope opens with hk | hk | hk | hk | hk | hk
  · exact absurd hk ordinary
  · simp only [hk, h.clean_block hk inner]
  · simp only [hk, clean_header (m := m) (by rw [hk]; rfl)]
  · simp only [hk, clean_header (m := m) (by rw [hk]; rfl)]
  · simp only [hk, clean_header (m := m) (by rw [hk]; rfl)]
  · simp only [hk, clean_catch hk]

/-- A node without a scope is clean. -/
theorem clean_of_not_opensScope (hk : (t.kind m).opensScope = false) (other : m ≠ root) :
    t.Clean root m := by
  have none : t.received root m = [] := by
    unfold received
    split <;> simp_all [Kind.opensScope]
  refine (clean_iff ?_ ?_).mpr ⟨[], by rw [none]; rfl, .nil⟩
  · intro hf
    rw [hf] at hk
    cases hk
  · intro hc
    rw [hc] at hk
    cases hk

end Clean

section Accepts
variable {visit : NodeId → ScopeId → Bind Unit}

/-- Going through the children of a node succeeds if all that is scanned from there is clean. -/
theorem accepts_children {n : NodeId} {s : ScopeId}
    (visits : ∀ c ∈ t.children n, (visit c s).Accepts (∀ m, t.Scanned c m → t.Clean root m)) :
    (t.bindChildren visit n s).Accepts (∀ c ∈ t.children n, ∀ m, t.Scanned c m → t.Clean root m) :=
  Bind.accepts_each visits

/-- A function succeeds if it is clean, and so is all that is scanned from its body. -/
theorem IsTree.accepts_function (h : t.IsTree) (bodies : t.BlockBodies) {f : NodeId}
    (hf : t.kind f = .function) (parent : Option ScopeId)
    (visits : ∀ body, t.functionBody? f = some body → ∀ c ∈ t.children body, ∀ s,
      (visit c s).Accepts (∀ m, t.Scanned c m → t.Clean root m)) :
    (t.bindFunction visit f parent).Accepts (∀ m, t.Scanned f m → t.Clean root m) := by
  cases hb : t.functionBody? f with
  | none =>
    have short : (t.children f).length ≤ 2 := List.getElem?_eq_none_iff.mp hb
    have faulty : ¬ ∀ m, t.Scanned f m → t.Clean root m := fun all =>
      Nat.not_lt.mpr short ((all f .refl).function_parts hf)
    have fails (e : BindError) : (throw e : Bind ScopeId).Accepts
        (∀ m, t.Scanned f m → t.Clean root m) :=
      (Bind.accepts_throw e).congr (iff_of_false id faulty)
    unfold bindFunction
    rw [hb]
    cases t.functionParams? f <;> exact fails _
  | some body =>
    obtain ⟨params, hp⟩ : ∃ params, t.functionParams? f = some params := by
      have parts : 2 < (t.children f).length := (List.getElem?_eq_some_iff.mp hb).1
      exact ⟨_, List.getElem?_eq_getElem (Nat.lt_of_succ_lt parts)⟩
    have block : t.kind body = .block := bodies f body hf hb
    have inner (s : ScopeId) : (do
        let _ ← Bind.enter .body body (some s) (t.bodyDecls body) (t.bindChildren visit body) :
        Bind Unit).Accepts (Sound (t.bodyDecls body) ∧
          ∀ c ∈ t.children body, ∀ m, t.Scanned c m → t.Clean root m) :=
      (Bind.accepts_enter fun s => accepts_children fun c hc => visits body hb c hc s).discard
    rw [bindFunction, hp, hb]
    refine (Bind.accepts_enter inner).congr ?_
    rw [forall_scanned_iff_body hf hb, forall_scanned_iff_children (by simp [block]),
      clean_function hf hp hb, h.clean_body block (h.isFunctionBlock_of_body bodies hf hb)]

/-- Going on at a node succeeds if all that is scanned from there is clean. -/
theorem IsTree.accepts_bind (h : t.IsTree) (bodies : t.BlockBodies) {n p : NodeId}
    (hp : t.parent n = some p) (inside : root ∈ t.ancestors p) (ordinary : t.kind p ≠ .function)
    (s : ScopeId) : (t.bind n s).Accepts (∀ m, t.Scanned n m → t.Clean root m) := by
  induction n using h.acyclic.induct_below generalizing p s with
  | _ n ih =>
    have n_inside : root ∈ t.ancestors n := h.mem_ancestors_of_parent hp inside
    have other : n ≠ root := fun same =>
      h.not_mem_ancestors_of_child ((h.parent_iff p n).mp hp) (same ▸ inside)
    have children (hf : t.kind n ≠ .function) (s : ScopeId) : (t.bindChildren t.bind n s).Accepts
        (∀ c ∈ t.children n, ∀ m, t.Scanned c m → t.Clean root m) :=
      accepts_children fun c hc => ih c (.child hc) (h.parent_of_child hc) n_inside hf s
    rw [bind_eq h.acyclic]
    by_cases hf : t.kind n = .function
    · rw [bindStep_of_function hf]
      refine (h.accepts_function bodies hf (some s) fun body hb c hc s => ?_).discard
      have mem : body ∈ t.children n := List.mem_of_getElem? hb
      exact ih c (.deeper mem (.child hc)) (h.parent_of_child hc)
        (h.mem_ancestors_of_parent (h.parent_of_child mem) n_inside)
        (by simp [bodies n body hf hb]) s
    · rw [forall_scanned_iff_children hf]
      cases opening : (t.kind n).opensScope with
      | true =>
        have inner : t.isFunctionBlock n = false := isFunctionBlock_eq_false hp ordinary
        rw [bindStep_of_opensScope hf opening inner, h.clean_scopeDecls hf opening inner]
        exact (Bind.accepts_enter (children hf)).discard
      | false =>
        rw [bindStep_of_not_opensScope opening, and_iff_right (clean_of_not_opensScope opening other)]
        exact children hf s

theorem IsTree.accepts_program (h : t.IsTree) (bodies : t.BlockBodies) (root : NodeId) :
    (t.bindProgram root).Accepts ((t.kind root = .script ∨ t.kind root = .function) ∧
      ∀ m, t.Scanned root m → t.Clean root m) := by
  have here : root ∈ t.ancestors root := h.mem_ancestors_self root
  rw [bindProgram]
  split
  · next hk =>
    have children (s : ScopeId) : (t.bindChildren t.bind root s).Accepts
        (∀ c ∈ t.children root, ∀ m, t.Scanned c m → t.Clean root m) :=
      accepts_children fun c hc =>
        h.accepts_bind bodies (h.parent_of_child hc) here (by simp [hk]) s
    refine (Bind.accepts_enter children).congr ?_
    rw [and_iff_right (Or.inl hk), forall_scanned_iff_children (by simp [hk]), h.clean_script hk]
  · next hk =>
    have function : (t.bindFunction t.bind root none).Accepts
        (∀ m, t.Scanned root m → t.Clean root m) := by
      refine h.accepts_function bodies hk none fun body hb c hc s => ?_
      have mem : body ∈ t.children root := List.mem_of_getElem? hb
      exact h.accepts_bind bodies (h.parent_of_child hc)
        (h.mem_ancestors_of_parent (h.parent_of_child mem) here) (by simp [bodies root body hk hb]) s
    exact function.congr (and_iff_right (Or.inr hk)).symm
  · next hs hf =>
    refine (Bind.accepts_throw _).congr (iff_of_false id ?_)
    rintro ⟨hk | hk, _⟩
    · exact hs hk
    · exact hf hk

end Accepts

/-- The list of what a node receives is sound if names stand where they should and no two of them
clash. -/
theorem IsTree.sound_received_iff (h : t.IsTree) (bodies : t.BlockBodies)
    (root_kind : t.kind root = .script ∨ t.kind root = .function) {m : NodeId}
    (scanned : t.Scanned root m) :
    Sound ((t.received root m).map t.place) ↔
      (∀ c kind, t.Receives root m c kind → t.isNameAt c = true) ∧
      ∀ c c' kind kind', t.Receives root m c kind → t.Receives root m c' kind' → c ≠ c' →
        t.name? c = t.name? c' → kind.isLexical = false ∧ kind'.isLexical = false := by
  have listed {c : NodeId} {kind : VarKind} :
      (c, kind) ∈ t.received root m ↔ t.Receives root m c kind :=
    h.mem_received_iff bodies root_kind scanned
  have once : (t.received root m).Pairwise fun q q' => q.1 ≠ q'.1 :=
    List.pairwise_map.mp (h.nodup_received root m)
  rw [sound_map_place]
  refine and_congr ?_ ?_
  · exact ⟨fun all c kind here => all _ (listed.mpr here), fun all q hq => all _ _ (listed.mp hq)⟩
  · constructor
    · intro agree c c' kind kind' here here' other
      have : Std.Symm t.PlacesAgree := ⟨fun _ _ agree same => (agree same.symm).symm⟩
      exact agree.forall (listed.mpr here) (listed.mpr here')
        fun same => other (congrArg Prod.fst same)
    · intro apart
      refine once.imp_of_mem fun {q q'} hq hq' other => ?_
      exact apart _ _ _ _ (listed.mp hq) (listed.mp hq') other

/-- The rules leave nothing but names to be received. -/
theorem WellDeclared.isNameAt_of_receives (rules : t.WellDeclared root) {m c : NodeId}
    {kind : VarKind} (receives : t.Receives root m c kind) : t.isNameAt c = true := by
  cases receives with
  | param scanned hf hp hc => exact (rules.functions m scanned hf).2 _ hp c hc
  | hoisted body within hd hc => exact rules.vars _ (body.scanned.trans within.scanned) hd c hc
  | statement block hd binds hc =>
    exact rules.statements m _ block hd (Kind.exists_binds?_iff.mp ⟨_, binds⟩) c hc
  | title block hn hf hc named =>
    rw [functionTitle, hc, Option.bind_some] at named
    refine Option.isSome_iff_ne_none.mpr fun none => named ?_
    rw [show t.name? c = Option.none from none]
    rfl
  | header scanned hk hd binds hc =>
    exact rules.headers m _ scanned hk hd (Kind.exists_binds?_iff.mp ⟨_, binds⟩) c hc
  | caught scanned hk hc =>
    obtain ⟨c', hc', named⟩ := rules.catches m scanned hk
    exact Option.some.inj (hc'.symm.trans hc) ▸ named

theorem IsTree.clean_of_wellDeclared (h : t.IsTree) (bodies : t.BlockBodies)
    (rules : t.WellDeclared root) {m : NodeId} (scanned : t.Scanned root m) : t.Clean root m where
  function_parts hf := (rules.functions m scanned hf).1
  catch_parts hk := by
    obtain ⟨c, hc, _⟩ := rules.catches m scanned hk
    exact ⟨c, hc⟩
  sound := (h.sound_received_iff bodies rules.root_kind scanned).mpr
    ⟨fun _ _ receives => rules.isNameAt_of_receives receives, rules.apart m⟩

theorem IsTree.wellDeclared_of_clean (h : t.IsTree) (bodies : t.BlockBodies)
    (root_kind : t.kind root = .script ∨ t.kind root = .function)
    (clean : ∀ m, t.Scanned root m → t.Clean root m) : t.WellDeclared root := by
  have sound {m : NodeId} (scanned : t.Scanned root m) :=
    (h.sound_received_iff bodies root_kind scanned).mp (clean m scanned).sound
  have named {m c : NodeId} {kind : VarKind} (receives : t.Receives root m c kind) :
      t.isNameAt c = true := (sound receives.scanned).1 c kind receives
  exact {
    root_kind
    functions := fun f scanned hf => ⟨(clean f scanned).function_parts hf,
      fun params hp c hc => named (.param scanned hf hp hc)⟩
    vars := fun d scanned hd c hc => by
      obtain ⟨m, body, within⟩ := exists_body root_kind scanned (by simp [hd])
      exact named (.hoisted body within hd hc)
    statements := fun m d block hd binds c hc => by
      obtain ⟨kind, binds⟩ := Kind.exists_binds?_iff.mpr binds
      exact named (.statement block hd binds hc)
    headers := fun m d scanned hk hd binds c hc => by
      obtain ⟨kind, binds⟩ := Kind.exists_binds?_iff.mpr binds
      exact named (.header scanned hk hd binds hc)
    catches := fun m scanned hk => by
      obtain ⟨c, hc⟩ := (clean m scanned).catch_parts hk
      exact ⟨c, hc, named (.caught scanned hk hc)⟩
    apart := fun m c c' kind kind' here here' =>
      (sound here.scanned).2 c c' kind kind' here here' }

theorem IsTree.wellDeclared_iff (h : t.IsTree) (bodies : t.BlockBodies) :
    t.WellDeclared root ↔ (t.kind root = .script ∨ t.kind root = .function) ∧
      ∀ m, t.Scanned root m → t.Clean root m :=
  ⟨fun rules => ⟨rules.root_kind, fun _ => h.clean_of_wellDeclared bodies rules⟩,
    fun clean => h.wellDeclared_of_clean bodies clean.1 clean.2⟩

end Tree

namespace Program

/-- **Scopes can be laid over what is well declared, and over nothing else.** The body of each
function is a block; apart from that, any tree will do, and any scopes may be there already. -/
theorem createScopes_ok_iff (p : Program) (root : NodeId) (tree : p.tree.IsTree)
    (bodies : p.tree.BlockBodies) :
    (∃ s, (p.createScopes root).1 = .ok s) ↔ p.tree.WellDeclared root := by
  rw [tree.wellDeclared_iff bodies, ← tree.accepts_program bodies root p.scopes]
  constructor
  · rintro ⟨s, done⟩
    exact ⟨s, (p.scopes.create p.tree root).2, Prod.ext done rfl⟩
  · rintro ⟨s, f', run⟩
    exact ⟨s, congrArg Prod.fst run⟩

/-- `function f() { { let x; } var x; }`, with any two declarations. -/
def twice (inner outer : Kind) : Program where
  tree := ⟨#[{ kind := .name "x", parent := some 1 },
    { kind := inner, children := [0], parent := some 2 },
    { kind := .block, children := [1], parent := some 5 }, { kind := .name "x", parent := some 4 },
    { kind := outer, children := [3], parent := some 5 },
    { kind := .block, children := [2, 4], parent := some 8 }, { kind := .name "f", parent := some 8 },
    { kind := .paramList, parent := some 8 }, { kind := .function, children := [6, 7, 5] }]⟩

/-- A `let` in a block does not clash with a `var` outside of it, but a `var` in a block clashes
with a `let` outside of it. -/
theorem createScopes_ok_iff_twice :
    ((twice .letDecl .varDecl).createScopes 8).1 = .ok 0 ∧
      (twice .letDecl .varDecl).tree.WellDeclared 8 ∧
    ((twice .varDecl .letDecl).createScopes 8).1 = .error (.duplicate "x") ∧
      ¬ (twice .varDecl .letDecl).tree.WellDeclared 8 := by
  have accepted : ((twice .letDecl .varDecl).createScopes 8).1 = .ok 0 := rfl
  have refused : ((twice .varDecl .letDecl).createScopes 8).1 = .error (.duplicate "x") := rfl
  refine ⟨accepted, ?_, refused, fun rules => ?_⟩
  · exact (createScopes_ok_iff (twice .letDecl .varDecl) 8
      (Tree.isTree_of_lt (by decide) (by decide) (by decide))
      (Tree.blockBodies_of_lt (by decide))).mp ⟨0, accepted⟩
  · obtain ⟨s, done⟩ := (createScopes_ok_iff (twice .varDecl .letDecl) 8
      (Tree.isTree_of_lt (by decide) (by decide) (by decide))
      (Tree.blockBodies_of_lt (by decide))).mpr rules
    rw [refused] at done
    cases done

end Program
end Liveness
