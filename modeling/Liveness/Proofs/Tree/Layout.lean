import Liveness.Proofs.Tree.Acyclic

/-! The convention for children.

Each kind of node has its children in a fixed layout: so many places, each for a certain
sort of node (`Kind.layout`). Where a value is wanted any kind can stand that is evaluated to
one, and so can a part that is left out; a place for a body or a statement holds anything. A
tree in which every node keeps to the layout of its kind is laid out. What is below an
operand then is an operand again, until a function begins. -/
namespace Liveness

namespace Kind

/-- A construct that is not evaluated to a value. -/
def isStatement : Kind → Bool
  | root | script | block | paramList | varDecl | letDecl | constDecl | ifStmt | whileLoop
  | doLoop | forLoop | forIn | forOf | tryStmt | catchClause | returnStmt | throwStmt
  | exprStmt => true
  | _ => false

/-- What can stand where a value is wanted, if only because the value is left out. -/
def isOperand (k : Kind) : Bool := !k.isStatement

def isKey : Kind → Bool
  | key _ => true
  | _ => false

theorem isOperand_of_isName {k : Kind} (h : k.isName = true) : k.isOperand = true := by
  cases k with
  | name _ => rfl
  | _ => cases h

theorem isOperand_of_isKey {k : Kind} (h : k.isKey = true) : k.isOperand = true := by
  cases k with
  | key _ => rfl
  | _ => cases h

end Kind

/-- What a place below a node is for. -/
inductive Place where
  | operand
  | name
  | key
  /-- A part of a pattern, a name or a key. -/
  | part
  | params
  | block
  | handler
  /-- What an iteration fills, an operand or a declaration. -/
  | target
  | any
deriving DecidableEq, Repr

namespace Place

def holds : Place → Kind → Bool
  | operand, k => k.isOperand
  | name, k => k.isName
  | key, k => k.isKey
  | part, k => k.isName || k.isKey
  | params, k => k == .paramList
  | block, k => k == .block
  | handler, k => k == .catchClause || k == .empty
  | target, k => k.isOperand || k.isDeclaration
  | any, _ => true

/-- One node for each place. -/
def fit : List Place → List Kind → Bool
  | [], [] => true
  | p :: ps, k :: ks => p.holds k && fit ps ks
  | _, _ => false

theorem exists_of_fit {ps : List Place} {ks : List Kind} (h : fit ps ks = true) :
    ∀ k ∈ ks, ∃ p ∈ ps, p.holds k = true := by
  fun_induction fit ps ks with
  | case1 => simp
  | case2 p ps k ks ih =>
    rw [Bool.and_eq_true] at h
    intro c hc
    rcases List.mem_cons.mp hc with rfl | hc
    · exact ⟨p, by simp, h.1⟩
    · obtain ⟨q, hq, holds⟩ := ih h.2 c hc
      exact ⟨q, by simp [hq], holds⟩
  | case3 => cases h

theorem length_of_fit {ps : List Place} {ks : List Kind} (h : fit ps ks = true) :
    ks.length = ps.length := by
  fun_induction fit ps ks with
  | case1 => rfl
  | case2 p ps k ks ih =>
    rw [Bool.and_eq_true] at h
    rw [List.length_cons, List.length_cons, ih h.2]
  | case3 => cases h

/-- The places that hold operands only. -/
def isOperand : Place → Bool
  | operand | name | key | part => true
  | _ => false

theorem isOperand_of_holds {p : Place} (operand : p.isOperand = true) {k : Kind}
    (h : p.holds k = true) : k.isOperand = true := by
  cases p with
  | operand => exact h
  | name => exact Kind.isOperand_of_isName h
  | key => exact Kind.isOperand_of_isKey h
  | part =>
    rcases (Bool.or_eq_true _ _).mp h with h | h
    · exact Kind.isOperand_of_isName h
    · exact Kind.isOperand_of_isKey h
  | params | block | handler | target | any => cases operand

end Place

inductive Layout where
  | exactly (places : List Place)
  /-- The last place may be missing. -/
  | optional (places : List Place) (last : Place)
  /-- Any number of further places. -/
  | many (places : List Place) (rest : Place)
deriving DecidableEq, Repr

namespace Layout

def places : Layout → List Place
  | exactly ps => ps
  | optional ps last => ps ++ [last]
  | many ps rest => ps ++ [rest]

/-- Whether nodes of the given kinds fit the layout. -/
def admits : Layout → List Kind → Bool
  | exactly ps, ks => Place.fit ps ks
  | optional ps last, ks => Place.fit ps ks || Place.fit (ps ++ [last]) ks
  | many ps rest, ks => Place.fit ps (ks.take ps.length) && (ks.drop ps.length).all rest.holds

/-- Whatever fits a layout stands in one of its places. -/
theorem exists_place {l : Layout} {ks : List Kind} (h : l.admits ks = true) :
    ∀ k ∈ ks, ∃ p ∈ l.places, p.holds k = true := by
  intro k hk
  cases l with
  | exactly ps => exact Place.exists_of_fit h k hk
  | optional ps last =>
    rcases (Bool.or_eq_true _ _).mp h with h | h
    · obtain ⟨p, hp, holds⟩ := Place.exists_of_fit h k hk
      exact ⟨p, List.mem_append_left _ hp, holds⟩
    · exact Place.exists_of_fit h k hk
  | many ps rest =>
    obtain ⟨first, others⟩ := (Bool.and_eq_true _ _).mp h
    rw [← List.take_append_drop ps.length ks, List.mem_append] at hk
    rcases hk with hk | hk
    · obtain ⟨p, hp, holds⟩ := Place.exists_of_fit first k hk
      exact ⟨p, List.mem_append_left _ hp, holds⟩
    · exact ⟨rest, by simp [places], List.all_eq_true.mp others k hk⟩

end Layout

namespace Kind

/-- The layout of the children of a node. -/
def layout : Kind → Layout
  | root | script | block => .many [] .any
  | function => .exactly [.name, .params, .block]
  | paramList | varDecl | letDecl | constDecl => .many [] .name
  | ifStmt => .optional [.operand, .any] .any
  | whileLoop => .exactly [.operand, .any]
  | doLoop => .exactly [.any, .operand]
  | forLoop => .exactly [.any, .operand, .operand, .any]
  | forIn | forOf => .exactly [.target, .operand, .any]
  | tryStmt => .optional [.any, .handler] .any
  | catchClause => .exactly [.name, .block]
  | returnStmt | name _ => .optional [] .operand
  | throwStmt | exprStmt | property _ | unary _ | key _ => .exactly [.operand]
  | and | or | binary _ | element | assign _ => .exactly [.operand, .operand]
  | conditional => .exactly [.operand, .operand, .operand]
  | call | construct => .many [.operand] .operand
  | empty | number _ | string _ | trueLit | falseLit | nullLit | this => .exactly []
  | arrayLit => .many [] .operand
  | objectLit => .many [] .key
  | arrayPattern | objectPattern => .many [] .part

/-- An operand that is not a function has places for operands only. -/
theorem isOperand_of_mem_places {k : Kind} (operand : k.isOperand = true)
    (ordinary : k ≠ .function) : ∀ p ∈ k.layout.places, p.isOperand = true := by
  cases k <;> simp_all [isOperand, isStatement, layout, Layout.places, Place.isOperand]

end Kind

namespace Tree
variable {t : Tree} {n : NodeId}

/-- Every node keeps to the layout of its kind. -/
def LaidOut (t : Tree) : Prop :=
  ∀ n < t.size, (t.kind n).layout.admits ((t.children n).map t.kind) = true

instance (t : Tree) : Decidable t.LaidOut :=
  inferInstanceAs (Decidable (∀ n < t.size, _ = true))

/-- A number that names no node keeps to the layout it reads as. -/
theorem LaidOut.admits (h : t.LaidOut) (n : NodeId) :
    (t.kind n).layout.admits ((t.children n).map t.kind) = true := by
  rcases Nat.lt_or_ge n t.size with lt | le
  · exact h n lt
  · rw [kind, children, node_of_size_le le]
    rfl

/-- A layout without options fixes the number of children. -/
theorem LaidOut.length_children (h : t.LaidOut) {ps : List Place}
    (exact : (t.kind n).layout = .exactly ps) : (t.children n).length = ps.length := by
  have admits := h.admits n
  rw [exact] at admits
  rw [← List.length_map t.kind]
  exact Place.length_of_fit admits

/-- Below an operand there are operands, functions apart. -/
theorem LaidOut.operand_child (h : t.LaidOut) (operand : (t.kind n).isOperand = true)
    (ordinary : t.kind n ≠ .function) {c : NodeId} (hc : c ∈ t.children n) :
    (t.kind c).isOperand = true := by
  obtain ⟨p, hp, holds⟩ := Layout.exists_place (h.admits n) _ (List.mem_map_of_mem hc)
  exact Place.isOperand_of_holds (Kind.isOperand_of_mem_places operand ordinary p hp) holds

end Tree
end Liveness
