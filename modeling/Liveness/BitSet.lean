/-! Sets of small numbers, one bit per member.

A set has a fixed width and holds members below it, packed into words of sixty-four bits:
member `i` is bit `i % 64` of word `i / 64`. Union and difference work word by word on the
words of the left set. The subset test looks at the words both sets have, and two sets
are equal only if their widths are. -/
namespace Liveness

structure BitSet where
  width : Nat := 0
  words : Array UInt64 := #[]
deriving DecidableEq, Repr

namespace BitSet

/-- The bits of one word. -/
abbrev wordBits : Nat := 64

/-- The set without members that can hold the numbers below `width`. -/
def empty (width : Nat) : BitSet :=
  ⟨width, Array.replicate ((width + (wordBits - 1)) / wordBits) 0⟩

/-- The word with only the bit of `i`. -/
def mask (i : Nat) : UInt64 := 1 <<< (i % wordBits).toUInt64

def word (s : BitSet) (k : Nat) : UInt64 := s.words[k]?.getD 0

/-- Whether `i` is a member. Numbers outside the width never are. -/
def contains (s : BitSet) (i : Nat) : Bool :=
  i < s.width && s.word (i / wordBits) &&& mask i != 0

/-- Adds a member below the width. -/
def insert (s : BitSet) (i : Nat) : BitSet :=
  { s with words := s.words.modify (i / wordBits) (· ||| mask i) }

/-- Removes a member below the width. -/
def erase (s : BitSet) (i : Nat) : BitSet :=
  { s with words := s.words.modify (i / wordBits) (· &&& ~~~ mask i) }

/-- A number outside the width of a set. -/
structure OutOfRange where
  index : Nat
  width : Nat
deriving DecidableEq, Repr

def OutOfRange.message (e : OutOfRange) : String :=
  "bit " ++ toString e.index ++ " out of range for width " ++ toString e.width

/-- Adds a member; numbers outside the width are refused. -/
def insert? (s : BitSet) (i : Nat) : Except OutOfRange BitSet :=
  if i < s.width then .ok (s.insert i) else .error ⟨i, s.width⟩

/-- Removes a member; numbers outside the width are refused. -/
def erase? (s : BitSet) (i : Nat) : Except OutOfRange BitSet :=
  if i < s.width then .ok (s.erase i) else .error ⟨i, s.width⟩

/-- The set of the given members; the first one outside the width is refused. -/
def ofList? (width : Nat) (members : List Nat) : Except OutOfRange BitSet :=
  members.foldlM insert? (empty width)

def union (s t : BitSet) : BitSet :=
  { s with words := s.words.mapIdx fun k w => w ||| t.word k }

def diff (s t : BitSet) : BitSet :=
  { s with words := s.words.mapIdx fun k w => w &&& ~~~ t.word k }

def inter (s t : BitSet) : BitSet := s.diff (s.diff t)

/-- Whether each bit of `s` is in `t`, as far as both have words. -/
def isSubset (s t : BitSet) : Bool :=
  (s.words.toList.zip t.words.toList).all fun (v, w) => v &&& ~~~ w == 0

def isEmpty (s : BitSet) : Bool := s.words.all (· == 0)

/-- The number of bits set in a word. -/
def ones (w : UInt64) : Nat := (List.range wordBits).countP fun i => w &&& mask i != 0

/-- The number of members. -/
def card (s : BitSet) : Nat := (s.words.toList.filter (· != 0)).foldr (fun w n => ones w + n) 0

/-- The members that one word holds. Most words of a wide set are zero and hold none. -/
def inWord (s : BitSet) (k : Nat) : List Nat :=
  if s.word k = 0 then []
  else ((List.range wordBits).map (wordBits * k + ·)).filter s.contains

/-- The members in ascending order. -/
def toList (s : BitSet) : List Nat := (List.range s.words.size).flatMap s.inWord

/-- Members between braces. -/
def text (s : BitSet) : String :=
  "\x7b" ++ ", ".intercalate (s.toList.map toString) ++ "\x7d"

end BitSet
end Liveness
