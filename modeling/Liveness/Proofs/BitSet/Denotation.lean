import Mathlib.Data.Finset.SDiff
import Mathlib.Data.Finset.Card
import Liveness.Proofs.BitSet

/-! Sets of bits stand for finite sets.

`Denotes` runs two machines side by side: operations on words, from the empty set of a width on,
and the same operations on finite sets of numbers. However a set was made, it has the members of
the finite set, the width it began with, the words that this width asks for and no bit beyond it
(`Denotes.proper`), and every question about it has the answer that the finite set gives.

The exception is whether one set is part of another. The test looks only at the words both sets
have, so members of the left set in words that the right one lacks go unseen
(`Proper.isSubset_iff`). Between sets of one width there are none. -/
namespace Liveness.BitSet
variable {s t : BitSet} {width : Nat}

/-! ### Words -/

theorem eq_zero_iff (w : UInt64) (k : Nat) :
    w = 0 ↔ ∀ i, i / wordBits = k → bit w i = false := by
  constructor
  · rintro rfl i _
    exact bit_zero i
  · intro clear
    apply word_ext k
    intro i hi
    rw [clear i hi, bit_zero]

theorem and_not_eq_zero_iff {v w : UInt64} (k : Nat) :
    v &&& ~~~ w = 0 ↔ ∀ i, i / wordBits = k → bit v i = true → bit w i = true := by
  simp only [eq_zero_iff _ k, bit_and_not, Bool.and_eq_false_imp, Bool.not_eq_false']

theorem word_of_size_le {k : Nat} (h : s.words.size ≤ k) : s.word k = 0 := by
  simp [word, Array.getElem?_eq_none h]

theorem getElem_words {k : Nat} (hk : k < s.words.size) : s.words[k] = s.word k := by
  rw [word, Array.getElem?_eq_getElem hk, Option.getD_some]

theorem toList_words (s : BitSet) : s.words.toList = (List.range s.words.size).map s.word := by
  apply List.ext_getElem
  · simp
  · intro k hk _
    rw [Array.getElem_toList, getElem_words, List.getElem_map, List.getElem_range]

/-! ### Members -/

/-- In a proper set the members are the bits that are set. -/
theorem Proper.contains_eq (h : s.Proper width) (i : Nat) :
    s.contains i = bit (s.word (i / wordBits)) i := by
  rw [BitSet.contains_eq, h.width_eq]
  rcases Nat.lt_or_ge i width with lt | le
  · simp [lt]
  · rw [h.beyond i le, Bool.and_false]

theorem mem_toList {i : Nat} : i ∈ s.toList ↔ s.contains i = true := by
  rw [toList_eq, List.mem_filter, List.mem_range]
  exact and_iff_right_of_imp fun h => (lt_of_contains h).1

theorem pairwise_toList (s : BitSet) : s.toList.Pairwise (· < ·) := by
  rw [toList_eq]
  exact List.pairwise_lt_range.filter _

theorem Proper.length_inWord (h : s.Proper width) (k : Nat) :
    (s.inWord k).length = ones (s.word k) := by
  rw [inWord_eq, ← List.countP_eq_length_filter, List.countP_map, ones]
  apply List.countP_congr
  intro j hj
  have here := place k (List.mem_range.mp hj)
  rw [Function.comp_apply, h.contains_eq, here.1, and_mask_bne_zero, bit, here.2, bit,
    Nat.mod_eq_of_lt (List.mem_range.mp hj)]

theorem Proper.length_flatMap_inWord (h : s.Proper width) (ks : List Nat) :
    (ks.flatMap s.inWord).length =
      ((ks.map s.word).filter (· != 0)).foldr (fun w n => ones w + n) 0 := by
  induction ks with
  | nil => rfl
  | cons k ks ih =>
    rw [List.flatMap_cons, List.length_append, ih, h.length_inWord, List.map_cons]
    by_cases zero : s.word k = 0
    · have none : ones 0 = 0 := by decide
      simp [zero, none]
    · simp [zero]

/-- The bits set in the words are as many as the members. -/
theorem Proper.card_eq (h : s.Proper width) : s.card = s.toList.length := by
  rw [card, toList_words, toList, h.length_flatMap_inWord]

theorem Proper.isEmpty_iff (h : s.Proper width) :
    s.isEmpty = true ↔ ∀ i, s.contains i = false := by
  have words : s.isEmpty = true ↔ ∀ k < s.words.size, s.word k = 0 := by
    rw [isEmpty, ← Array.all_toList, toList_words, List.all_eq_true]
    simp
  rw [words]
  constructor
  · intro zero i
    rw [h.contains_eq]
    rcases Nat.lt_or_ge (i / wordBits) s.words.size with lt | le
    · rw [zero _ lt, bit_zero]
    · rw [word_of_size_le le, bit_zero]
  · intro none k _
    rw [eq_zero_iff _ k]
    rintro i rfl
    rw [← h.contains_eq, none]

/-! ### Parts -/

theorem isSubset_iff_words : s.isSubset t = true ↔ ∀ k < s.words.size, k < t.words.size →
    s.word k &&& ~~~ t.word k = 0 := by
  rw [isSubset, List.all_eq_true]
  constructor
  · intro all k hs ht
    have pair : (s.word k, t.word k) ∈ s.words.toList.zip t.words.toList := by
      refine List.mem_iff_getElem.mpr ⟨k, by simp [hs, ht], ?_⟩
      simp [getElem_words]
    exact beq_iff_eq.mp (all _ pair)
  · rintro all ⟨v, w⟩ pair
    obtain ⟨k, hk, here⟩ := List.mem_iff_getElem.mp pair
    rw [List.length_zip, Array.length_toList, Array.length_toList, Nat.lt_min] at hk
    rw [List.getElem_zip, Array.getElem_toList, Array.getElem_toList, getElem_words,
      getElem_words] at here
    obtain ⟨rfl, rfl⟩ := Prod.mk.inj here
    exact beq_iff_eq.mpr (all k hk.1 hk.2)

/-- The words of one set hold no bit that the other has not, as far as the other has words. -/
theorem isSubset_iff_bits : s.isSubset t = true ↔ ∀ i, i / wordBits < t.words.size →
    bit (s.word (i / wordBits)) i = true → bit (t.word (i / wordBits)) i = true := by
  rw [isSubset_iff_words]
  constructor
  · intro clear i ht set
    rcases Nat.lt_or_ge (i / wordBits) s.words.size with hs | out
    · exact (and_not_eq_zero_iff (i / wordBits)).mp (clear _ hs ht) i rfl set
    · rw [word_of_size_le out, bit_zero] at set
      cases set
  · intro part k _ ht
    rw [and_not_eq_zero_iff k]
    rintro i rfl
    exact part i ht

/-- How many numbers a set has words for. -/
def capacity (s : BitSet) : Nat := wordBits * ((s.width + (wordBits - 1)) / wordBits)

/-- One set passes for a part of another if the other has its members, those left out for which it
has no word. -/
theorem Proper.isSubset_iff {width' : Nat} (hs : s.Proper width) (ht : t.Proper width') :
    s.isSubset t = true ↔
      ∀ i < t.capacity, s.contains i = true → t.contains i = true := by
  have worded : ∀ i, i / wordBits < t.words.size ↔ i < t.capacity := by
    intro i
    rw [capacity, ht.width_eq, ← ht.size_eq, Nat.mul_comm]
    exact Nat.div_lt_iff_lt_mul (by decide)
  simp only [isSubset_iff_bits, hs.contains_eq, ht.contains_eq, worded]

theorem width_le_capacity (s : BitSet) : s.width ≤ s.capacity := by
  simp only [capacity, wordBits]
  omega

/-- One set is part of another if it passes for that and has no member for which the other has no
word. -/
theorem Proper.included_iff {width' : Nat} (hs : s.Proper width) (ht : t.Proper width') :
    (∀ i, s.contains i = true → t.contains i = true) ↔
      s.isSubset t = true ∧ ∀ i, s.contains i = true → i < t.capacity := by
  rw [hs.isSubset_iff ht]
  constructor
  · intro part
    refine ⟨fun i _ => part i, fun i hi => ?_⟩
    exact Nat.lt_of_lt_of_le (lt_of_contains (part i hi)).1 t.width_le_capacity
  · rintro ⟨part, worded⟩ i hi
    exact part i (worded i hi) hi

/-- To pass is to be a part if there is no room for other members. -/
theorem Proper.isSubset_iff_included {width' : Nat} (hs : s.Proper width) (ht : t.Proper width')
    (room : s.width ≤ t.capacity) :
    s.isSubset t = true ↔ ∀ i, s.contains i = true → t.contains i = true := by
  rw [hs.included_iff ht, iff_self_and]
  intro _ i hi
  exact Nat.lt_of_lt_of_le (lt_of_contains hi).1 room

/-! ### Finite sets -/

/-- A set as it is made from the empty set of a width, and the finite set that the same operations
make. -/
inductive Denotes (width : Nat) : BitSet → Finset Nat → Prop
  | empty : Denotes width (empty width) ∅
  | insert {s t : BitSet} {A : Finset Nat} {i : Nat} :
      Denotes width s A → s.insert? i = .ok t → Denotes width t (A ∪ {i})
  | erase {s t : BitSet} {A : Finset Nat} {i : Nat} :
      Denotes width s A → s.erase? i = .ok t → Denotes width t (A \ {i})
  | union {s t : BitSet} {A B : Finset Nat} :
      Denotes width s A → Denotes width t B → Denotes width (s.union t) (A ∪ B)
  | diff {s t : BitSet} {A B : Finset Nat} :
      Denotes width s A → Denotes width t B → Denotes width (s.diff t) (A \ B)

theorem insert?_eq_ok {i : Nat} : s.insert? i = .ok t ↔ i < s.width ∧ s.insert i = t := by
  unfold insert?
  split <;> simp_all

theorem erase?_eq_ok {i : Nat} : s.erase? i = .ok t ↔ i < s.width ∧ s.erase i = t := by
  unfold erase?
  split <;> simp_all

namespace Denotes
variable {width' : Nat} {A B : Finset Nat}

/-- However a set was made, it is proper and has the members of the finite set. -/
theorem represents (h : s.Denotes width A) :
    s.Proper width ∧ ∀ i, s.contains i = true ↔ i ∈ A := by
  induction h with
  | empty => exact ⟨proper_empty width, by simp⟩
  | insert _ made ih =>
    obtain ⟨below, rfl⟩ := insert?_eq_ok.mp made
    rw [ih.1.width_eq] at below
    refine ⟨ih.1.insert below, fun j => ?_⟩
    rw [contains_insert ih.1.toFits below, Bool.or_comm, Bool.or_eq_true, decide_eq_true_eq, ih.2,
      Finset.mem_union, Finset.mem_singleton, eq_comm]
  | erase _ made ih =>
    obtain ⟨below, rfl⟩ := erase?_eq_ok.mp made
    rw [ih.1.width_eq] at below
    refine ⟨ih.1.erase below, fun j => ?_⟩
    rw [contains_erase ih.1.toFits below, Bool.and_comm, Bool.and_eq_true, Bool.not_eq_true',
      decide_eq_false_iff_not, ih.2, Finset.mem_sdiff, Finset.mem_singleton, eq_comm]
  | union _ _ ihs iht =>
    refine ⟨ihs.1.union iht.1, fun j => ?_⟩
    rw [contains_union ihs.1.toFits iht.1.width_eq, Bool.or_eq_true, ihs.2, iht.2,
      Finset.mem_union]
  | @diff s t _ _ _ _ ihs iht =>
    refine ⟨ihs.1.diff t, fun j => ?_⟩
    rw [contains_diff ihs.1.toFits iht.1.width_eq, Bool.and_eq_true, ihs.2, Bool.not_eq_true',
      ← Bool.not_eq_true, iht.2, Finset.mem_sdiff]

theorem proper (h : s.Denotes width A) : s.Proper width := h.represents.1

theorem contains_iff (h : s.Denotes width A) (i : Nat) : s.contains i = true ↔ i ∈ A :=
  h.represents.2 i

/-- Bits at or above the width are zero. -/
theorem testBit_beyond (h : s.Denotes width A) {k j : Nat} {w : UInt64}
    (hw : s.words[k]? = some w) (hj : width ≤ wordBits * k + j) : w.toNat.testBit j = false := by
  rcases Nat.lt_or_ge j wordBits with lt | ge
  · have here := place k lt
    have clear := h.proper.beyond _ hj
    rwa [here.1, word, hw, Option.getD_some, bit, here.2, ← BitVec.testBit_toNat] at clear
  · have room : 2 ^ wordBits ≤ 2 ^ j := Nat.pow_le_pow_right (by decide) ge
    exact Nat.testBit_lt_two_pow (Nat.lt_of_lt_of_le w.toNat_lt room)

theorem card_eq (h : s.Denotes width A) : s.card = A.card := by
  have nodup : s.toList.Nodup := s.pairwise_toList.imp fun lt => Nat.ne_of_lt lt
  have same : A = s.toList.toFinset := by
    ext i
    rw [List.mem_toFinset, mem_toList, h.contains_iff]
  rw [h.proper.card_eq, same, List.toFinset_card_of_nodup nodup]

theorem isEmpty_iff (h : s.Denotes width A) : s.isEmpty = true ↔ A = ∅ := by
  simp only [h.proper.isEmpty_iff, ← Bool.not_eq_true, h.contains_iff,
    Finset.eq_empty_iff_forall_notMem]

theorem eq_iff (hs : s.Denotes width A) (ht : t.Denotes width' B) :
    s = t ↔ width = width' ∧ A = B := by
  constructor
  · rintro rfl
    refine ⟨hs.proper.width_eq.symm.trans ht.proper.width_eq, ?_⟩
    ext i
    rw [← hs.contains_iff, ht.contains_iff]
  · rintro ⟨rfl, rfl⟩
    refine hs.proper.ext ht.proper fun i => ?_
    rw [Bool.eq_iff_iff, hs.contains_iff, ht.contains_iff]

theorem isSubset_iff (hs : s.Denotes width A) (ht : t.Denotes width B) :
    s.isSubset t = true ↔ A ⊆ B := by
  have room : s.width ≤ t.capacity := by
    rw [hs.proper.width_eq, ← ht.proper.width_eq]
    exact t.width_le_capacity
  rw [hs.proper.isSubset_iff_included ht.proper room]
  simp only [hs.contains_iff, ht.contains_iff]
  rfl

end Denotes

/-- **Sets of bits are finite sets.** However a set was made from the empty set of a width, it has
that width, exactly the words which the width asks for, and no bit beyond it. Its members are
those of the finite set that the same operations make, and a further operation keeps it so. They
are listed in ascending order and counted, and the set is empty if there are none. Two sets are
equal, or one is part of another of the same width, if the finite sets are. -/
theorem denotes_faithful (width : Nat) (s : BitSet) (A : Finset Nat) (h : s.Denotes width A) :
    s.width = width ∧
    s.words.size = (width + 63) / 64 ∧
    (∀ k w, s.words[k]? = some w → ∀ j, width ≤ 64 * k + j → w.toNat.testBit j = false) ∧
    (∀ i, s.contains i = true ↔ i ∈ A) ∧
    (∀ i < width, ∃ t, s.insert? i = .ok t ∧ ∀ j, t.contains j = true ↔ j ∈ A ∪ {i}) ∧
    (∀ i < width, ∃ t, s.erase? i = .ok t ∧ ∀ j, t.contains j = true ↔ j ∈ A \ {i}) ∧
    ((∀ i, i ∈ s.toList ↔ i ∈ A) ∧ s.toList.Pairwise (· < ·)) ∧
    s.card = A.card ∧
    (s.isEmpty = true ↔ A = ∅) ∧
    (∀ width' t B, t.Denotes width' B → (s = t ↔ width = width' ∧ A = B)) ∧
    ∀ t B, t.Denotes width B →
      (∀ j, (s.union t).contains j = true ↔ j ∈ A ∪ B) ∧
      (∀ j, (s.diff t).contains j = true ↔ j ∈ A \ B) ∧
      (s.isSubset t = true ↔ A ⊆ B) := by
  have inside {i : Nat} (hi : i < width) : i < s.width := h.proper.width_eq ▸ hi
  refine ⟨h.proper.width_eq, h.proper.size_eq, fun k w hw j => h.testBit_beyond hw, h.contains_iff,
    ?_, ?_, ⟨?_, s.pairwise_toList⟩, h.card_eq, h.isEmpty_iff, fun width' t B ht => h.eq_iff ht,
    fun t B ht => ⟨(h.union ht).contains_iff, (h.diff ht).contains_iff, h.isSubset_iff ht⟩⟩
  · intro i hi
    have made := insert?_eq_ok.mpr ⟨inside hi, rfl⟩
    exact ⟨_, made, (h.insert made).contains_iff⟩
  · intro i hi
    have made := erase?_eq_ok.mpr ⟨inside hi, rfl⟩
    exact ⟨_, made, (h.erase made).contains_iff⟩
  · intro i
    rw [mem_toList, h.contains_iff]

theorem denotes_faithful_spread :
    ∃ s : BitSet, s.Denotes 130 {0, 129} ∧ s.width = 130 ∧ s.words.size = 3 ∧ s.card = 2 ∧
      ∀ i, s.contains i = true ↔ i = 0 ∨ i = 129 := by
  have first : (empty 130).insert? 0 = .ok ⟨130, #[1, 0, 0]⟩ := rfl
  have second : insert? ⟨130, #[1, 0, 0]⟩ 64 = .ok ⟨130, #[1, 1, 0]⟩ := rfl
  have third : insert? ⟨130, #[1, 1, 0]⟩ 129 = .ok ⟨130, #[1, 1, 2]⟩ := rfl
  have last : erase? ⟨130, #[1, 1, 2]⟩ 64 = .ok ⟨130, #[1, 0, 2]⟩ := rfl
  have made : Denotes 130 ⟨130, #[1, 0, 2]⟩ {0, 129} :=
    (((Denotes.empty.insert first).insert second).insert third).erase last
  obtain ⟨width, size, _, members, _, _, _, card, _⟩ := denotes_faithful _ _ _ made
  refine ⟨_, made, width, size, card, fun i => ?_⟩
  rw [members]
  simp

/-- **The test for parts looks at the words both sets have.** A set passes for a part of another
exactly if the other has its members, those left out for which the other has no word. It is a
part exactly if it passes and has no such member; where its width leaves no room for one, to pass
is to be a part. -/
theorem isSubset_within_words (width width' : Nat) (s t : BitSet) (A B : Finset Nat)
    (hs : s.Denotes width A) (ht : t.Denotes width' B) :
    (s.isSubset t = true ↔ ∀ i < t.capacity, s.contains i = true → t.contains i = true) ∧
    ((∀ i, s.contains i = true → t.contains i = true) ↔
      s.isSubset t = true ∧ ∀ i, s.contains i = true → i < t.capacity) ∧
    (s.width ≤ t.capacity →
      (s.isSubset t = true ↔ ∀ i, s.contains i = true → t.contains i = true)) :=
  ⟨hs.proper.isSubset_iff ht.proper, hs.proper.included_iff ht.proper,
    hs.proper.isSubset_iff_included ht.proper⟩

theorem isSubset_within_words_ragged :
    ∃ s t : BitSet, s.Denotes 128 {66} ∧ t.Denotes 67 {3, 66} ∧ s.width = 128 ∧ t.width = 67 ∧
      ∀ i, s.contains i = true → t.contains i = true := by
  have left : (empty 128).insert? 66 = .ok ⟨128, #[0, 4]⟩ := rfl
  have right : (empty 67).insert? 3 = .ok ⟨67, #[8, 0]⟩ := rfl
  have both : insert? ⟨67, #[8, 0]⟩ 66 = .ok ⟨67, #[8, 4]⟩ := rfl
  have hs : Denotes 128 ⟨128, #[0, 4]⟩ {66} := Denotes.empty.insert left
  have ht : Denotes 67 ⟨67, #[8, 4]⟩ {3, 66} := (Denotes.empty.insert right).insert both
  obtain ⟨_, _, agrees⟩ := isSubset_within_words _ _ _ _ _ _ hs ht
  exact ⟨_, _, hs, ht, rfl, rfl, (agrees (by decide)).mp (by decide)⟩

/-- The one member of a set is in a word that the empty set beside it does not have. -/
theorem isSubset_misses_words :
    ∃ s, (empty 65).insert? 64 = .ok s ∧ s.isSubset (empty 64) = true ∧
      s.contains 64 = true ∧ (empty 64).contains 64 = false :=
  ⟨⟨65, #[0, 1]⟩, rfl, by decide, by decide, by decide⟩

end Liveness.BitSet
