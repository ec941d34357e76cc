import Mathlib.Data.List.Nodup
import Mathlib.Logic.Relation
import Liveness.Proofs.Scope.Clash

/-! Which programs scopes can be laid over.

The rules can be said of the text alone. Laying scopes goes into a function through its body only
and into everything else through all its children; what it comes to is scanned. A declaration
belongs to the scope of one node: a `var` to that of the body around it, a `let` or `const` to that
of its block or loop, and so on (`Receives`). A program is well declared if the parts of its
functions are there, names stand where names are declared, and no scope receives a name twice with a
`let` or `const` among the two. These are the programs over which scopes can be laid, whatever
scopes there are already.

The argument goes through the list of what each node receives (`received`). It is what laying scopes
declares there, and in a tree it lists a name node once. -/
namespace Liveness

namespace Kind

/-- A loop with a header of its own. -/
def hasHeader : Kind → Bool
  | forLoop | forIn | forOf => true
  | _ => false

/-- What the names in a `let` or `const` are declared as. -/
def binds? : Kind → Option VarKind
  | letDecl => some .mutable
  | constDecl => some .constant
  | _ => none

theorem exists_binds?_iff {k : Kind} :
    (∃ kind, k.binds? = some kind) ↔ k = letDecl ∨ k = constDecl := by
  cases k <;> simp [binds?]

end Kind

/-- What is said to be missing where a name should be declared. -/
def VarKind.expectation : VarKind → Expectation
  | param => .parameterName
  | plain | mutable | constant => .bindingName
  | function => .functionName
  | caught => .caughtName

namespace Tree
variable {t : Tree} {root : NodeId}

/-! ### The rules -/

/-- A function is entered through its body, any other node through each of its children. -/
def Enters (t : Tree) (n c : NodeId) : Prop :=
  if t.kind n = .function then t.functionBody? n = some c else c ∈ t.children n

/-- The nodes that are come to from the root. -/
def Scanned (t : Tree) (root : NodeId) : NodeId → Prop := Relation.ReflTransGen t.Enters root

/-- The nodes at and below a node that are come to without entering a function. -/
def Within (t : Tree) : NodeId → NodeId → Prop :=
  Relation.ReflTransGen fun n c => t.kind n ≠ .function ∧ c ∈ t.children n

/-- A script that is the whole program, or the body of a scanned function. -/
def IsBody (t : Tree) (root m : NodeId) : Prop :=
  m = root ∧ t.kind m = .script ∨
    ∃ f, t.Scanned root f ∧ t.kind f = .function ∧ t.functionBody? f = some m

/-- A script that is the whole program, or a scanned block. -/
def IsBlock (t : Tree) (root m : NodeId) : Prop :=
  m = root ∧ t.kind m = .script ∨ t.Scanned root m ∧ t.kind m = .block

/-- The scope of a node receives a declaration of the name that stands at another node. -/
inductive Receives (t : Tree) (root : NodeId) : NodeId → NodeId → VarKind → Prop
  | param {f params c : NodeId} : t.Scanned root f → t.kind f = .function →
      t.functionParams? f = some params → c ∈ t.children params → Receives t root f c .param
  /-- A `var` belongs to the body around it, however deep it stands. -/
  | hoisted {m d c : NodeId} : t.IsBody root m → t.Within m d → t.kind d = .varDecl →
      c ∈ t.children d → Receives t root m c .plain
  /-- A `let` or `const` belongs to the block it stands in. -/
  | statement {m d c : NodeId} {kind : VarKind} : t.IsBlock root m → d ∈ t.children m →
      (t.kind d).binds? = some kind → c ∈ t.children d → Receives t root m c kind
  /-- So does a function that has a name. -/
  | title {m n c : NodeId} : t.IsBlock root m → n ∈ t.children m → t.kind n = .function →
      t.functionName? n = some c → t.functionTitle n ≠ "" → Receives t root m c .function
  /-- A `let` or `const` in the header of a loop belongs to the loop. -/
  | header {m d c : NodeId} {kind : VarKind} : t.Scanned root m → (t.kind m).hasHeader = true →
      t.child? m 0 = some d → (t.kind d).binds? = some kind → c ∈ t.children d →
      Receives t root m c kind
  | caught {m c : NodeId} : t.Scanned root m → t.kind m = .catchClause → t.child? m 0 = some c →
      Receives t root m c .caught

/-- A name stands at the node. -/
def isNameAt (t : Tree) (c : NodeId) : Bool := (t.kind c).isName

/-- Nothing but names is directly below the node. -/
def NamesOnly (t : Tree) (d : NodeId) : Prop := ∀ c ∈ t.children d, t.isNameAt c = true

/-- The rules for programs that scopes can be laid over. -/
structure WellDeclared (t : Tree) (root : NodeId) : Prop where
  root_kind : t.kind root = .script ∨ t.kind root = .function
  functions : ∀ f, t.Scanned root f → t.kind f = .function → 3 ≤ (t.children f).length ∧
    ∀ params, t.functionParams? f = some params → t.NamesOnly params
  vars : ∀ d, t.Scanned root d → t.kind d = .varDecl → t.NamesOnly d
  statements : ∀ m d, t.IsBlock root m → d ∈ t.children m →
    t.kind d = .letDecl ∨ t.kind d = .constDecl → t.NamesOnly d
  headers : ∀ m d, t.Scanned root m → (t.kind m).hasHeader = true → t.child? m 0 = some d →
    t.kind d = .letDecl ∨ t.kind d = .constDecl → t.NamesOnly d
  catches : ∀ m, t.Scanned root m → t.kind m = .catchClause →
    ∃ c, t.child? m 0 = some c ∧ t.isNameAt c = true
  /-- Two declarations of one name in one scope are both other than `let` and `const`. -/
  apart : ∀ m c c' kind kind', t.Receives root m c kind → t.Receives root m c' kind' → c ≠ c' →
    t.name? c = t.name? c' → kind.isLexical = false ∧ kind'.isLexical = false

/-! ### Scanning -/

theorem forall_scanned_iff {P : NodeId → Prop} {n : NodeId} :
    (∀ m, t.Scanned n m → P m) ↔ P n ∧ ∀ c, t.Enters n c → ∀ m, t.Scanned c m → P m := by
  constructor
  · exact fun all => ⟨all n .refl, fun c enters m scanned => all m (.head enters scanned)⟩
  · rintro ⟨here, below⟩ m scanned
    rcases Relation.ReflTransGen.cases_head scanned with rfl | ⟨c, enters, scanned⟩
    · exact here
    · exact below c enters m scanned

theorem enters_of_mem {n c : NodeId} (ordinary : t.kind n ≠ .function) (hc : c ∈ t.children n) :
    t.Enters n c := by
  rw [Enters, if_neg ordinary]
  exact hc

theorem enters_body {f body : NodeId} (hf : t.kind f = .function)
    (hb : t.functionBody? f = some body) : t.Enters f body := by
  rw [Enters, if_pos hf]
  exact hb

theorem Enters.mem {n c : NodeId} (h : t.Enters n c) : c ∈ t.children n := by
  unfold Enters at h
  split at h
  · exact List.mem_of_getElem? h
  · exact h

/-- What is entered from other than a function and what from a function. -/
theorem forall_scanned_iff_children {P : NodeId → Prop} {n : NodeId}
    (ordinary : t.kind n ≠ .function) :
    (∀ m, t.Scanned n m → P m) ↔ P n ∧ ∀ c ∈ t.children n, ∀ m, t.Scanned c m → P m := by
  rw [forall_scanned_iff]
  simp only [Enters, if_neg ordinary]

theorem forall_scanned_iff_body {P : NodeId → Prop} {f body : NodeId} (hf : t.kind f = .function)
    (hb : t.functionBody? f = some body) :
    (∀ m, t.Scanned f m → P m) ↔ P f ∧ ∀ m, t.Scanned body m → P m := by
  rw [forall_scanned_iff]
  simp only [Enters, if_pos hf, hb, Option.some.injEq, forall_eq']

theorem Within.scanned {m d : NodeId} (h : t.Within m d) : t.Scanned m d :=
  Relation.ReflTransGen.mono (fun _ _ step => enters_of_mem step.1 step.2) _ _ h

theorem IsBody.scanned {m : NodeId} (h : t.IsBody root m) : t.Scanned root m := by
  rcases h with ⟨rfl, _⟩ | ⟨f, scanned, hf, hb⟩
  · exact .refl
  · exact scanned.tail (enters_body hf hb)

theorem IsBlock.scanned {m : NodeId} (h : t.IsBlock root m) : t.Scanned root m := by
  rcases h with ⟨rfl, _⟩ | ⟨scanned, _⟩
  · exact .refl
  · exact scanned

theorem Receives.scanned {m c : NodeId} {kind : VarKind} (h : t.Receives root m c kind) :
    t.Scanned root m := by
  cases h with
  | param scanned | header scanned | caught scanned => exact scanned
  | hoisted body => exact body.scanned
  | statement block | title block => exact block.scanned

/-- Whatever is scanned is in a body, apart from functions. -/
theorem exists_body (root_kind : t.kind root = .script ∨ t.kind root = .function) {d : NodeId}
    (scanned : t.Scanned root d) (ordinary : t.kind d ≠ .function) :
    ∃ m, t.IsBody root m ∧ t.Within m d := by
  induction scanned with
  | refl => exact ⟨root, .inl ⟨rfl, root_kind.resolve_right ordinary⟩, .refl⟩
  | @tail p d scanned enters ih =>
    by_cases hp : t.kind p = .function
    · rw [Enters, if_pos hp] at enters
      exact ⟨d, .inr ⟨p, scanned, hp, enters⟩, .refl⟩
    · obtain ⟨m, body, inside⟩ := ih hp
      exact ⟨m, body, inside.tail ⟨hp, enters.mem⟩⟩

/-! ### What a node receives, as a list -/

/-- The declaration of the name that should stand at a node. -/
def place (t : Tree) (q : NodeId × VarKind) : Except BindError Decl :=
  t.binding q.2 q.2.expectation q.1

/-- The declaration, if a name stands there. -/
def declAt (t : Tree) (q : NodeId × VarKind) : Decl := ⟨(t.name? q.1).getD "", q.1, q.2⟩

/-- Two declarations can stand in one scope. -/
def PlacesAgree (t : Tree) (q q' : NodeId × VarKind) : Prop :=
  t.name? q.1 = t.name? q'.1 → q.2.isLexical = false ∧ q'.2.isLexical = false

theorem name?_of_isNameAt {q : NodeId × VarKind} (named : t.isNameAt q.1 = true) :
    t.name? q.1 = some (t.declAt q).name := by
  obtain ⟨x, hx⟩ := Option.isSome_iff_exists.mp (show (t.name? q.1).isSome = true from named)
  rw [declAt, hx]
  rfl

theorem place_of_isNameAt {q : NodeId × VarKind} (named : t.isNameAt q.1 = true) :
    t.place q = .ok (t.declAt q) := by
  rw [place, binding, name?_of_isNameAt named]
  rfl

theorem isNameAt_of_place {q : NodeId × VarKind} {d : Decl} (h : t.place q = .ok d) :
    t.isNameAt q.1 = true := by
  unfold place binding at h
  split at h
  · next x named => exact Option.isSome_iff_exists.mpr ⟨x, named⟩
  · cases h

theorem agrees_declAt_iff {q q' : NodeId × VarKind} (named : t.isNameAt q.1 = true)
    (named' : t.isNameAt q'.1 = true) : (t.declAt q).Agrees (t.declAt q') ↔ t.PlacesAgree q q' := by
  rw [PlacesAgree, name?_of_isNameAt named, name?_of_isNameAt named', Option.some.injEq]
  rfl

/-- Declarations are sound if names stand where they should and every two of them agree. -/
theorem sound_map_place {places : List (NodeId × VarKind)} :
    Sound (places.map t.place) ↔
      (∀ q ∈ places, t.isNameAt q.1 = true) ∧ places.Pairwise t.PlacesAgree := by
  have agree (named : ∀ q ∈ places, t.isNameAt q.1 = true) :
      Sound (places.map t.place) ↔ places.Pairwise t.PlacesAgree := by
    have all : places.map t.place = (places.map t.declAt).map .ok := by
      rw [List.map_map]
      exact List.map_congr_left fun q hq => place_of_isNameAt (named q hq)
    rw [all, sound_map_ok, List.pairwise_map]
    exact List.Pairwise.iff_of_mem fun hq hq' => agrees_declAt_iff (named _ hq) (named _ hq')
  constructor
  · intro sound
    have named : ∀ q ∈ places, t.isNameAt q.1 = true := by
      intro q hq
      obtain ⟨d, there⟩ := sound.exists_ok _ (List.mem_map_of_mem hq)
      exact isNameAt_of_place there
    exact ⟨named, (agree named).mp sound⟩
  · rintro ⟨named, pairwise⟩
    exact (agree named).mpr pairwise

/-- What a node declares if it is a `let` or `const`. -/
def letPlaces (t : Tree) (d : NodeId) : List (NodeId × VarKind) :=
  match (t.kind d).binds? with
  | some kind => (t.children d).map (·, kind)
  | none => []

/-- What the `var` declarations in a body declare. -/
def varPlaces (t : Tree) (body : NodeId) : List (NodeId × VarKind) :=
  ((t.children body).flatMap t.varDecls).flatMap fun d => (t.children d).map (·, .plain)

/-- What a node declares if it is a function with a name. -/
def titlePlaces (t : Tree) (n : NodeId) : List (NodeId × VarKind) :=
  if t.kind n = .function ∧ t.functionTitle n ≠ "" then
    (t.functionName? n).toList.map (·, .function)
  else []

/-- What the statements directly in a block declare. -/
def statementPlaces (t : Tree) (block : NodeId) : List (NodeId × VarKind) :=
  (t.children block).flatMap fun n => t.titlePlaces n ++ t.letPlaces n

/-- What the scope of a node receives, in the order of declaration. -/
def received (t : Tree) (root m : NodeId) : List (NodeId × VarKind) :=
  match t.kind m with
  | .function =>
    (t.functionParams? m).toList.flatMap fun params => (t.children params).map (·, .param)
  | .script => if m = root then t.varPlaces m ++ t.statementPlaces m else []
  | .block => (if t.isFunctionBlock m then t.varPlaces m else []) ++ t.statementPlaces m
  | .forLoop | .forIn | .forOf => (t.child? m 0).toList.flatMap t.letPlaces
  | .catchClause => (t.child? m 0).toList.map (·, .caught)
  | _ => []

theorem received_of_script (hk : t.kind root = .script) :
    t.received root root = t.varPlaces root ++ t.statementPlaces root := by
  rw [received, hk]
  exact if_pos rfl

theorem received_of_block {m : NodeId} (hk : t.kind m = .block) : t.received root m =
    (if t.isFunctionBlock m then t.varPlaces m else []) ++ t.statementPlaces m := by
  rw [received, hk]

theorem received_of_function {f params : NodeId} (hk : t.kind f = .function)
    (hp : t.functionParams? f = some params) :
    t.received root f = (t.children params).map (·, .param) := by
  rw [received, hk, hp]
  exact List.flatMap_singleton _ _

theorem received_of_hasHeader {m : NodeId} (hk : (t.kind m).hasHeader = true) :
    t.received root m = (t.child? m 0).toList.flatMap t.letPlaces := by
  unfold received
  split <;> simp_all [Kind.hasHeader]

theorem received_of_catch {m : NodeId} (hk : t.kind m = .catchClause) :
    t.received root m = (t.child? m 0).toList.map (·, .caught) := by
  rw [received, hk]

theorem map_place_varPlaces {body : NodeId} (block : t.kind body ≠ .varDecl) :
    (t.varPlaces body).map t.place = t.hoisted body := by
  rw [varPlaces, hoisted, if_neg block, List.nil_append, List.map_flatMap]
  refine flatMap_congr fun d _ => ?_
  rw [List.map_map]
  rfl

theorem map_place_letPlaces (t : Tree) (d : NodeId) : (t.letPlaces d).map t.place =
    (t.kind d).binds?.toList.flatMap fun kind => t.bindings kind d := by
  unfold letPlaces Kind.binds?
  cases t.kind d <;> simp [bindings, place, VarKind.expectation, Function.comp_def]

theorem IsTree.map_place_statementPlaces (h : t.IsTree) {block : NodeId}
    (statements : t.kind block = .block ∨ t.kind block = .script) :
    (t.statementPlaces block).map t.place = t.lexical block := by
  rw [statementPlaces, lexical, List.map_flatMap]
  refine flatMap_congr fun n hn => ?_
  rw [List.map_append, map_place_letPlaces, titlePlaces]
  by_cases hf : t.kind n = .function
  · simp only [hf, isFunctionDeclaration_eq hf (h.parent_of_child hn) statements, true_and]
    by_cases anonymous : t.functionTitle n = "" <;>
      simp [anonymous, place, VarKind.expectation, Function.comp_def, Kind.binds?]
  · rw [if_neg fun both => hf both.1]
    cases hk : t.kind n <;> simp_all [Kind.binds?]

/-! ### The list is right -/

theorem within_iff {n d : NodeId} :
    t.Within n d ↔ d = n ∨ t.kind n ≠ .function ∧ ∃ c ∈ t.children n, t.Within c d := by
  rw [Within, Relation.ReflTransGen.cases_head_iff, eq_comm]
  refine or_congr_right ⟨?_, ?_⟩
  · rintro ⟨c, ⟨ordinary, hc⟩, within⟩
    exact ⟨ordinary, c, hc, within⟩
  · rintro ⟨ordinary, c, hc, within⟩
    exact ⟨c, ⟨ordinary, hc⟩, within⟩

theorem mem_varDecls (acyclic : t.Acyclic) {n d : NodeId} :
    d ∈ t.varDecls n ↔ t.Within n d ∧ t.kind d = .varDecl := by
  induction n using acyclic.induct with
  | _ n ih =>
    have inner : d ∈ (t.children n).flatMap t.varDecls ↔
        (∃ c ∈ t.children n, t.Within c d) ∧ t.kind d = .varDecl := by
      rw [List.mem_flatMap]
      constructor
      · rintro ⟨c, hc, hd⟩
        obtain ⟨within, hk⟩ := (ih c hc).mp hd
        exact ⟨⟨c, hc, within⟩, hk⟩
      · rintro ⟨⟨c, hc, within⟩, hk⟩
        exact ⟨c, hc, (ih c hc).mpr ⟨within, hk⟩⟩
    have self (other : t.kind n ≠ .varDecl) (same : d = n) : t.kind d ≠ .varDecl := same ▸ other
    rw [within_iff, varDecls_eq acyclic, varDeclsStep]
    split
    · next hf => simpa [hf] using self (by simp [hf])
    · next hv =>
      rw [List.mem_cons, inner]
      constructor
      · rintro (rfl | ⟨below, hk⟩)
        · exact ⟨.inl rfl, hv⟩
        · exact ⟨.inr ⟨by simp [hv], below⟩, hk⟩
      · rintro ⟨rfl | ⟨_, below⟩, hk⟩
        · exact .inl rfl
        · exact .inr ⟨below, hk⟩
    · next hf hv =>
      rw [inner]
      refine and_congr_left fun hk => ?_
      rw [or_iff_right fun same => self hv same hk, and_iff_right hf]

theorem varDecls_of_block (acyclic : t.Acyclic) {m : NodeId}
    (block : t.kind m = .block ∨ t.kind m = .script) :
    t.varDecls m = (t.children m).flatMap t.varDecls := by
  rw [varDecls_eq acyclic, varDeclsStep]
  rcases block with hk | hk <;> rw [hk]

theorem mem_map_places {ns : List NodeId} {c : NodeId} {kind kind' : VarKind} :
    (c, kind) ∈ ns.map (·, kind') ↔ kind' = kind ∧ c ∈ ns := by
  rw [List.mem_map]
  constructor
  · rintro ⟨_, hc, same⟩
    obtain ⟨rfl, rfl⟩ := Prod.mk.inj same
    exact ⟨rfl, hc⟩
  · rintro ⟨rfl, hc⟩
    exact ⟨c, hc, rfl⟩

theorem mem_letPlaces {d c : NodeId} {kind : VarKind} :
    (c, kind) ∈ t.letPlaces d ↔ (t.kind d).binds? = some kind ∧ c ∈ t.children d := by
  unfold letPlaces
  cases (t.kind d).binds? with
  | none => simp
  | some k => simp only [mem_map_places, Option.some.injEq]

theorem mem_titlePlaces {n c : NodeId} {kind : VarKind} :
    (c, kind) ∈ t.titlePlaces n ↔ (t.kind n = .function ∧ t.functionTitle n ≠ "") ∧
      .function = kind ∧ t.functionName? n = some c := by
  unfold titlePlaces
  split
  · next named => rw [mem_map_places, Option.mem_toList, and_iff_right named]
  · next unnamed => simp [unnamed]

theorem mem_varPlaces (acyclic : t.Acyclic) {m c : NodeId} {kind : VarKind}
    (block : t.kind m = .block ∨ t.kind m = .script) :
    (c, kind) ∈ t.varPlaces m ↔
      ∃ d, (t.Within m d ∧ t.kind d = .varDecl) ∧ .plain = kind ∧ c ∈ t.children d := by
  simp only [varPlaces, ← varDecls_of_block acyclic block, List.mem_flatMap, mem_varDecls acyclic,
    mem_map_places]

/-- The body of a function is a block. -/
def BlockBodies (t : Tree) : Prop :=
  ∀ f body, t.kind f = .function → t.functionBody? f = some body → t.kind body = .block

theorem blockBodies_of_lt (h : ∀ f < t.size, t.kind f = .function →
    (t.functionBody? f).all (fun body => t.kind body == .block) = true) : t.BlockBodies := by
  intro f body hf hb
  have lt : f < t.size := lt_size_of_mem_children (List.mem_of_getElem? hb)
  have block := h f lt hf
  rw [hb] at block
  exact beq_iff_eq.mp block

section Received
variable {m c : NodeId} {kind : VarKind}

theorem IsTree.isFunctionBlock_of_body (h : t.IsTree) (bodies : t.BlockBodies) {f : NodeId}
    (hf : t.kind f = .function) (hb : t.functionBody? f = some m) : t.isFunctionBlock m = true := by
  have around : t.parent m = some f := h.parent_of_child (List.mem_of_getElem? hb)
  simp [isFunctionBlock, bodies f m hf hb, around, isFunction_iff.mpr hf, hb]

theorem receives_of_statementPlaces (block : t.IsBlock root m)
    (h : (c, kind) ∈ t.statementPlaces m) :
    t.Receives root m c kind := by
  obtain ⟨n, hn, there⟩ := List.mem_flatMap.mp h
  rcases List.mem_append.mp there with there | there
  · obtain ⟨⟨hf, named⟩, rfl, hc⟩ := mem_titlePlaces.mp there
    exact .title block hn hf hc named
  · obtain ⟨binds, hc⟩ := mem_letPlaces.mp there
    exact .statement block hn binds hc

theorem receives_of_varPlaces (acyclic : t.Acyclic) (body : t.IsBody root m)
    (block : t.kind m = .block ∨ t.kind m = .script) (h : (c, kind) ∈ t.varPlaces m) :
    t.Receives root m c kind := by
  obtain ⟨d, ⟨within, hd⟩, rfl, hc⟩ := (mem_varPlaces acyclic block).mp h
  exact .hoisted body within hd hc

/-! What the list holds, construct by construct. -/

theorem mem_received_function (hk : t.kind m = .function) : (c, kind) ∈ t.received root m ↔
    ∃ params, t.functionParams? m = some params ∧ .param = kind ∧ c ∈ t.children params := by
  simp only [received, hk, List.mem_flatMap, Option.mem_toList, mem_map_places]

theorem mem_received_script (hk : t.kind m = .script) : (c, kind) ∈ t.received root m ↔
    m = root ∧ ((c, kind) ∈ t.varPlaces m ∨ (c, kind) ∈ t.statementPlaces m) := by
  rw [received, hk]
  by_cases same : m = root <;> simp [same]

theorem mem_received_block (hk : t.kind m = .block) : (c, kind) ∈ t.received root m ↔
    t.isFunctionBlock m = true ∧ (c, kind) ∈ t.varPlaces m ∨
      (c, kind) ∈ t.statementPlaces m := by
  rw [received_of_block hk, List.mem_append]
  split <;> simp_all

theorem mem_received_hasHeader (hk : (t.kind m).hasHeader = true) : (c, kind) ∈ t.received root m ↔
    ∃ d, t.child? m 0 = some d ∧ (t.kind d).binds? = some kind ∧ c ∈ t.children d := by
  simp only [received_of_hasHeader hk, List.mem_flatMap, Option.mem_toList, mem_letPlaces]

theorem mem_received_catch (hk : t.kind m = .catchClause) : (c, kind) ∈ t.received root m ↔
    .caught = kind ∧ t.child? m 0 = some c := by
  rw [received_of_catch hk, mem_map_places, Option.mem_toList]

/-- The function of a scanned body is scanned. -/
theorem IsTree.isBody_of_isFunctionBlock (h : t.IsTree) (scanned : t.Scanned root m)
    (other : m ≠ root) (body : t.isFunctionBlock m = true) : t.IsBody root m := by
  rcases Relation.ReflTransGen.cases_tail scanned with same | ⟨p, above, enters⟩
  · exact absurd same other
  · have around := h.parent_of_child enters.mem
    simp only [isFunctionBlock, around, Bool.and_eq_true, beq_iff_eq] at body
    exact .inr ⟨p, above, isFunction_iff.mp body.2.1, body.2.2⟩

/-- Nothing is in the list that is not received. -/
theorem IsTree.receives_of_mem_received (h : t.IsTree)
    (root_kind : t.kind root = .script ∨ t.kind root = .function) (scanned : t.Scanned root m)
    (there : (c, kind) ∈ t.received root m) : t.Receives root m c kind := by
  cases hk : t.kind m with
  | function =>
    obtain ⟨params, hp, rfl, hc⟩ := (mem_received_function hk).mp there
    exact .param scanned hk hp hc
  | script =>
    obtain ⟨same, there | there⟩ := (mem_received_script hk).mp there
    · exact receives_of_varPlaces h.acyclic (.inl ⟨same, hk⟩) (.inr hk) there
    · exact receives_of_statementPlaces (.inl ⟨same, hk⟩) there
  | block =>
    have other : m ≠ root := by
      rintro rfl
      rw [hk] at root_kind
      rcases root_kind with hk | hk <;> cases hk
    rcases (mem_received_block hk).mp there with ⟨body, there⟩ | there
    · exact receives_of_varPlaces h.acyclic (h.isBody_of_isFunctionBlock scanned other body)
        (.inl hk) there
    · exact receives_of_statementPlaces (.inr ⟨scanned, hk⟩) there
  | forLoop | forIn | forOf =>
    have header : (t.kind m).hasHeader = true := by
      rw [hk]
      rfl
    obtain ⟨d, hd, binds, hc⟩ := (mem_received_hasHeader header).mp there
    exact .header scanned header hd binds hc
  | catchClause =>
    obtain ⟨rfl, hc⟩ := (mem_received_catch hk).mp there
    exact .caught scanned hk hc
  | _ => simp [received, hk] at there

theorem mem_received_of_statementPlaces (block : t.IsBlock root m)
    (h : (c, kind) ∈ t.statementPlaces m) : (c, kind) ∈ t.received root m := by
  rcases block with ⟨same, hk⟩ | ⟨_, hk⟩
  · exact (mem_received_script hk).mpr ⟨same, .inr h⟩
  · exact (mem_received_block hk).mpr (.inr h)

theorem IsTree.mem_received_of_within (h : t.IsTree) (bodies : t.BlockBodies)
    (body : t.IsBody root m) {d : NodeId} (within : t.Within m d) (hd : t.kind d = .varDecl)
    (hc : c ∈ t.children d) : (c, .plain) ∈ t.received root m := by
  have places (block : t.kind m = .block ∨ t.kind m = .script) : (c, .plain) ∈ t.varPlaces m :=
    (mem_varPlaces h.acyclic block).mpr ⟨d, ⟨within, hd⟩, rfl, hc⟩
  rcases body with ⟨same, hk⟩ | ⟨f, _, hf, hb⟩
  · exact (mem_received_script hk).mpr ⟨same, .inl (places (.inr hk))⟩
  · have hk := bodies f m hf hb
    exact (mem_received_block hk).mpr
      (.inl ⟨h.isFunctionBlock_of_body bodies hf hb, places (.inl hk)⟩)

/-- All that is received is in the list. -/
theorem IsTree.mem_received_of_receives (h : t.IsTree) (bodies : t.BlockBodies)
    (receives : t.Receives root m c kind) : (c, kind) ∈ t.received root m := by
  cases receives with
  | param _ hf hp hc => exact (mem_received_function hf).mpr ⟨_, hp, rfl, hc⟩
  | hoisted body within hd hc => exact h.mem_received_of_within bodies body within hd hc
  | statement block hd binds hc =>
    exact mem_received_of_statementPlaces block
      (List.mem_flatMap.mpr ⟨_, hd, List.mem_append_right _ (mem_letPlaces.mpr ⟨binds, hc⟩)⟩)
  | title block hn hf hc named =>
    exact mem_received_of_statementPlaces block (List.mem_flatMap.mpr
      ⟨_, hn, List.mem_append_left _ (mem_titlePlaces.mpr ⟨⟨hf, named⟩, rfl, hc⟩)⟩)
  | header _ hk hd binds hc => exact (mem_received_hasHeader hk).mpr ⟨_, hd, binds, hc⟩
  | caught _ hk hc => exact (mem_received_catch hk).mpr ⟨rfl, hc⟩

/-- The list holds what is received and nothing else. -/
theorem IsTree.mem_received_iff (h : t.IsTree) (bodies : t.BlockBodies)
    (root_kind : t.kind root = .script ∨ t.kind root = .function) (scanned : t.Scanned root m) :
    (c, kind) ∈ t.received root m ↔ t.Receives root m c kind :=
  ⟨h.receives_of_mem_received root_kind scanned, h.mem_received_of_receives bodies⟩

/-! No name node is in the list twice. -/

theorem IsTree.nodup_varDecls (h : t.IsTree) (n : NodeId) : (t.varDecls n).Nodup :=
  h.filter_preorder n _ rfl ▸ (h.nodup_preorder n).filter _

theorem map_fst_places (ns : List NodeId) (kind : VarKind) :
    (ns.map (·, kind)).map Prod.fst = ns := by
  simp [Function.comp_def]

/-- What several nodes have below them is listed once if the nodes are. -/
theorem IsTree.nodup_flatMap_places (h : t.IsTree) {ds : List NodeId} (nodup : ds.Nodup)
    {places : NodeId → List (NodeId × VarKind)}
    (own : ∀ d ∈ ds, ((places d).map Prod.fst).Sublist (t.children d)) :
    ((ds.flatMap places).map Prod.fst).Nodup := by
  rw [List.map_flatMap, List.nodup_flatMap]
  refine ⟨fun d hd => (h.nodup d).sublist (own d hd), nodup.imp_of_mem ?_⟩
  intro d d' hd hd' other c below below'
  have around := h.parent_of_child ((own d hd).subset below)
  have around' := h.parent_of_child ((own d' hd').subset below')
  exact other (Option.some.inj (around.symm.trans around'))

theorem letPlaces_sublist (t : Tree) (d : NodeId) :
    ((t.letPlaces d).map Prod.fst).Sublist (t.children d) := by
  unfold letPlaces
  split
  · exact map_fst_places _ _ ▸ List.Sublist.refl _
  · exact List.nil_sublist _

theorem titlePlaces_append_letPlaces_sublist (t : Tree) (n : NodeId) :
    ((t.titlePlaces n ++ t.letPlaces n).map Prod.fst).Sublist (t.children n) := by
  by_cases hf : t.kind n = .function
  · have silent : t.letPlaces n = [] := by rw [letPlaces, hf]; rfl
    rw [silent, List.append_nil, titlePlaces]
    split
    · rw [map_fst_places, functionName?, child?]
      cases t.children n <;> simp
    · exact List.nil_sublist _
  · rw [titlePlaces, if_neg fun both => hf both.1, List.nil_append]
    exact t.letPlaces_sublist n

theorem IsTree.nodup_statementPlaces (h : t.IsTree) (m : NodeId) :
    ((t.statementPlaces m).map Prod.fst).Nodup :=
  h.nodup_flatMap_places (h.nodup m) fun n _ => t.titlePlaces_append_letPlaces_sublist n

theorem IsTree.nodup_body (h : t.IsTree) (block : t.kind m = .block ∨ t.kind m = .script) :
    ((t.varPlaces m ++ t.statementPlaces m).map Prod.fst).Nodup := by
  rw [List.map_append, List.nodup_append]
  refine ⟨?_, h.nodup_statementPlaces m, ?_⟩
  · rw [varPlaces, ← varDecls_of_block h.acyclic block]
    refine h.nodup_flatMap_places (h.nodup_varDecls m) fun d _ => ?_
    rw [map_fst_places]
  · -- A name in a `var` is not directly below any other declaration.
    rintro c hc _ hc' rfl
    obtain ⟨⟨_, kind⟩, hq, rfl⟩ := List.mem_map.mp hc
    obtain ⟨⟨c', kind'⟩, hq', rfl⟩ := List.mem_map.mp hc'
    obtain ⟨d, ⟨_, hd⟩, _, below⟩ := (mem_varPlaces h.acyclic block).mp hq
    obtain ⟨n, _, there⟩ := List.mem_flatMap.mp hq'
    have below' := (t.titlePlaces_append_letPlaces_sublist n).subset (List.mem_map_of_mem there)
    obtain rfl : d = n :=
      Option.some.inj ((h.parent_of_child below).symm.trans (h.parent_of_child below'))
    rcases List.mem_append.mp there with there | there
    · rw [(mem_titlePlaces.mp there).1.1] at hd
      cases hd
    · have binds := (mem_letPlaces.mp there).1
      rw [hd] at binds
      cases binds

theorem IsTree.nodup_received (h : t.IsTree) (root m : NodeId) :
    ((t.received root m).map Prod.fst).Nodup := by
  have single (o : Option NodeId) : o.toList.Nodup := by cases o <;> simp
  have header : (((t.child? m 0).toList.flatMap t.letPlaces).map Prod.fst).Nodup :=
    h.nodup_flatMap_places (single _) fun d _ => t.letPlaces_sublist d
  unfold received
  split
  · refine h.nodup_flatMap_places (single _) fun params _ => ?_
    rw [map_fst_places]
  · next hk =>
    split
    · exact h.nodup_body (.inr hk)
    · exact List.nodup_nil
  · next hk =>
    split
    · exact h.nodup_body (.inl hk)
    · exact h.nodup_statementPlaces m
  · exact header
  · exact header
  · exact header
  · rw [map_fst_places]
    exact single _
  · exact List.nodup_nil

end Received

end Tree
end Liveness
