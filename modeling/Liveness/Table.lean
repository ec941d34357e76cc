/-! Tables that remember insertion order.

A scope lists its variables in the order they were declared, a function numbers its
locals by first occurrence, and passes are listed in the order they were registered.
All three are this one structure: a list of entries, searched from the front. New keys
go to the back and a key that is already present keeps its place, so the position of
a key never changes once it has one. -/
namespace Liveness

/-- Entries in insertion order. -/
structure Table (κ : Type u) (α : Type v) where
  entries : List (κ × α) := []
deriving DecidableEq, Repr

namespace Table
variable {κ : Type u} {α : Type v} [BEq κ]

/-- The table without entries. -/
def empty : Table κ α := ⟨[]⟩

def size (t : Table κ α) : Nat := t.entries.length

def keys (t : Table κ α) : List κ := t.entries.map (·.1)

def values (t : Table κ α) : List α := t.entries.map (·.2)

def find? (t : Table κ α) (k : κ) : Option α := t.entries.lookup k

def contains (t : Table κ α) (k : κ) : Bool := (t.find? k).isSome

/-- The position of a key. -/
def idxOf? (t : Table κ α) (k : κ) : Option Nat := t.entries.findIdx? (·.1 == k)

/-- The entry at a position. -/
def entry? (t : Table κ α) (i : Nat) : Option (κ × α) := t.entries[i]?

/-- Adds an entry at the back without looking for the key. -/
def push (t : Table κ α) (k : κ) (v : α) : Table κ α := ⟨t.entries ++ [(k, v)]⟩

/-- Adds the entry unless the key is present. -/
def insertNew (t : Table κ α) (k : κ) (v : α) : Table κ α :=
  if t.contains k then t else t.push k v

/-- Adds the entry, or gives a key that is present its new value in place. -/
def insert (t : Table κ α) (k : κ) (v : α) : Table κ α :=
  if t.contains k then ⟨t.entries.map fun e => if e.1 == k then (e.1, v) else e⟩
  else t.push k v

end Table
end Liveness
