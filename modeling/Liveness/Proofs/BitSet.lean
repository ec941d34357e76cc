import Liveness.BitSet

/-! Sets of bits by their members.

A set that has all the words its width asks for (`Fits`) is known by which numbers it
contains, and what its operations do to words they do to members. Everything else about
live sets is said in terms of members, without a word. -/
namespace Liveness.BitSet

/-- The word with only the bit of `i` is a power of two. -/
theorem toBitVec_mask (i : Nat) : (mask i).toBitVec = BitVec.twoPow 64 (i % wordBits) := by
  have lt : i % wordBits < 64 := Nat.mod_lt i (by decide)
  have amount : ((i % wordBits).toUInt64.toBitVec % 64#64).toNat = i % wordBits := by
    rw [BitVec.toNat_umod, Nat.toUInt64, UInt64.toBitVec_ofNat', BitVec.toNat_ofNat]
    show i % wordBits % 2 ^ 64 % 64 = i % wordBits
    omega
  rw [mask, UInt64.toBitVec_shiftLeft, BitVec.twoPow_eq]
  show 1#64 <<< ((i % wordBits).toUInt64.toBitVec % 64#64) = _
  rw [BitVec.shiftLeft_eq', amount]

/-- The bit of `i` in a word that holds it. -/
def bit (w : UInt64) (i : Nat) : Bool := w.toBitVec.getLsbD (i % wordBits)

theorem and_mask_bne_zero (w : UInt64) (i : Nat) : (w &&& mask i != 0) = bit w i := by
  have lt : i % wordBits < 64 := Nat.mod_lt i (by decide)
  have word : (w &&& mask i).toBitVec =
      if bit w i then BitVec.twoPow 64 (i % wordBits) else 0#64 := by
    rw [UInt64.toBitVec_and, toBitVec_mask, BitVec.and_twoPow]
    rfl
  cases h : bit w i with
  | true =>
    rw [bne_iff_ne]
    intro zero
    have at_i := congrArg (fun v : UInt64 => v.toBitVec.getLsbD (i % wordBits)) zero
    simp [word, h, lt] at at_i
  | false =>
    have : w &&& mask i = 0 := UInt64.toBitVec_inj.mp (by rw [word, h]; rfl)
    simp [this]

theorem contains_eq (s : BitSet) (i : Nat) :
    s.contains i = (decide (i < s.width) && bit (s.word (i / wordBits)) i) := by
  rw [contains, and_mask_bne_zero]

@[simp] theorem bit_zero (i : Nat) : bit 0 i = false := by simp [bit]

@[simp] theorem bit_or (v w : UInt64) (i : Nat) : bit (v ||| w) i = (bit v i || bit w i) := by
  simp [bit]

@[simp] theorem bit_and_not (v w : UInt64) (i : Nat) :
    bit (v &&& ~~~ w) i = (bit v i && !bit w i) := by
  have lt : i % wordBits < 64 := Nat.mod_lt i (by decide)
  simp [bit, lt]

theorem bit_mask (i j : Nat) : bit (mask i) j = decide (i % wordBits = j % wordBits) := by
  have lt : i % wordBits < 64 := Nat.mod_lt i (by decide)
  simp [bit, toBitVec_mask, lt]

theorem word_union (s t : BitSet) (k : Nat) :
    (s.union t).word k = if k < s.words.size then s.word k ||| t.word k else 0 := by
  split <;> simp_all [union, word]

theorem word_diff (s t : BitSet) (k : Nat) :
    (s.diff t).word k = if k < s.words.size then s.word k &&& ~~~ t.word k else 0 := by
  split <;> simp_all [diff, word]

/-- A word is replaced and the others stay. -/
theorem word_modify (s : BitSet) (f : UInt64 → UInt64) {k : Nat} (there : k < s.words.size)
    (j : Nat) :
    word { s with words := s.words.modify k f } j = if k = j then f (s.word j) else s.word j := by
  split
  · next same =>
    subst same
    simp [word, Array.getElem_modify, there]
  · next other => simp [word, Array.getElem?_modify, other]

/-- Numbers with the same bit of the same word are equal. -/
theorem eq_iff_mod_eq {i j : Nat} (same : i / wordBits = j / wordBits) :
    i % wordBits = j % wordBits ↔ i = j := by
  simp only [wordBits] at same ⊢
  omega

theorem bit_insert {s : BitSet} {i : Nat} (there : i / wordBits < s.words.size) (j : Nat) :
    bit ((s.insert i).word (j / wordBits)) j =
      (decide (i = j) || bit (s.word (j / wordBits)) j) := by
  rw [insert, word_modify s _ there]
  split
  · next same =>
    rw [bit_or, bit_mask, Bool.or_comm]
    simp only [eq_iff_mod_eq same]
  · next other =>
    have : i ≠ j := fun h => other (by rw [h])
    simp [this]

theorem bit_erase {s : BitSet} {i : Nat} (there : i / wordBits < s.words.size) (j : Nat) :
    bit ((s.erase i).word (j / wordBits)) j =
      (!decide (i = j) && bit (s.word (j / wordBits)) j) := by
  rw [erase, word_modify s _ there]
  split
  · next same =>
    rw [bit_and_not, bit_mask, Bool.and_comm]
    simp only [eq_iff_mod_eq same]
  · next other =>
    have : i ≠ j := fun h => other (by rw [h])
    simp [this]

/-! ### Sets of a width -/

/-- A set of the given width has a word for each group of numbers below it. -/
structure Fits (s : BitSet) (width : Nat) : Prop where
  width_eq : s.width = width
  size_eq : s.words.size = (width + (wordBits - 1)) / wordBits

/-- The word of a number below the width is there. -/
theorem Fits.word_lt {s : BitSet} {width i : Nat} (h : s.Fits width) (hi : i < width) :
    i / wordBits < s.words.size := by
  rw [h.size_eq]
  simp only [wordBits]
  omega

theorem fits_empty (width : Nat) : (empty width).Fits width := ⟨rfl, by simp [empty]⟩

theorem Fits.insert {s : BitSet} {width : Nat} (h : s.Fits width) (i : Nat) :
    (s.insert i).Fits width :=
  ⟨h.width_eq, by simp [BitSet.insert, h.size_eq]⟩

theorem Fits.erase {s : BitSet} {width : Nat} (h : s.Fits width) (i : Nat) :
    (s.erase i).Fits width :=
  ⟨h.width_eq, by simp [BitSet.erase, h.size_eq]⟩

theorem Fits.union {s : BitSet} {width : Nat} (h : s.Fits width) (t : BitSet) :
    (s.union t).Fits width :=
  ⟨h.width_eq, by simp [BitSet.union, h.size_eq]⟩

theorem Fits.diff {s : BitSet} {width : Nat} (h : s.Fits width) (t : BitSet) :
    (s.diff t).Fits width :=
  ⟨h.width_eq, by simp [BitSet.diff, h.size_eq]⟩

/-! ### Members -/

theorem lt_of_contains {s : BitSet} {i : Nat} (h : s.contains i) :
    i < s.width ∧ i < wordBits * s.words.size := by
  simp only [contains, Bool.and_eq_true, decide_eq_true_eq] at h
  refine ⟨h.1, ?_⟩
  rcases Nat.lt_or_ge (i / wordBits) s.words.size with lt | le
  · rw [Nat.mul_comm]
    exact (Nat.div_lt_iff_lt_mul (by decide)).mp lt
  · simp [word, Array.getElem?_eq_none le] at h

@[simp] theorem contains_empty (width i : Nat) : (empty width).contains i = false := by
  rw [contains_eq]
  have : (empty width).word (i / wordBits) = 0 := by
    simp only [word, empty, Array.getElem?_replicate]
    split <;> rfl
  simp [this]

theorem contains_insert {s : BitSet} {width i : Nat} (h : s.Fits width) (hi : i < width) (j : Nat) :
    (s.insert i).contains j = (decide (i = j) || s.contains j) := by
  rw [contains_eq, contains_eq, bit_insert (h.word_lt hi)]
  show (decide (j < s.width) && _) = _
  rw [h.width_eq]
  by_cases hij : i = j
  · subst hij
    simp [hi]
  · simp [hij]

theorem contains_erase {s : BitSet} {width i : Nat} (h : s.Fits width) (hi : i < width) (j : Nat) :
    (s.erase i).contains j = (!decide (i = j) && s.contains j) := by
  rw [contains_eq, contains_eq, bit_erase (h.word_lt hi)]
  exact Bool.and_left_comm _ _ _

theorem contains_union {s t : BitSet} {width : Nat} (hs : s.Fits width) (ht : t.width = width)
    (i : Nat) : (s.union t).contains i = (s.contains i || t.contains i) := by
  simp only [contains_eq]
  show (decide (i < s.width) && bit ((s.union t).word (i / wordBits)) i) = _
  rw [hs.width_eq, ht]
  by_cases hi : i < width
  · rw [word_union, if_pos (hs.word_lt hi)]
    simp [hi]
  · simp [hi]

theorem contains_diff {s t : BitSet} {width : Nat} (hs : s.Fits width) (ht : t.width = width)
    (i : Nat) : (s.diff t).contains i = (s.contains i && !t.contains i) := by
  simp only [contains_eq]
  show (decide (i < s.width) && bit ((s.diff t).word (i / wordBits)) i) = _
  rw [hs.width_eq, ht]
  by_cases hi : i < width
  · rw [word_diff, if_pos (hs.word_lt hi)]
    simp [hi]
  · simp [hi]

/-! ### The list of members -/

/-- The members of a word are the members among its numbers. -/
theorem inWord_eq (s : BitSet) (k : Nat) :
    s.inWord k = ((List.range wordBits).map (wordBits * k + ·)).filter s.contains := by
  rw [inWord]
  split
  · next zero =>
    symm
    rw [List.filter_eq_nil_iff]
    intro i hi
    obtain ⟨j, hj, rfl⟩ := List.mem_map.mp hi
    have : (wordBits * k + j) / wordBits = k := by
      rw [Nat.mul_add_div (by decide), Nat.div_eq_of_lt (List.mem_range.mp hj), Nat.add_zero]
    simp [contains, this, zero]
  · rfl

theorem flatMap_words (m : Nat) :
    (List.range m).flatMap (fun k => (List.range wordBits).map (wordBits * k + ·)) =
      List.range (wordBits * m) := by
  induction m with
  | zero => rfl
  | succ m ih =>
    have last : List.range (m + 1) = List.range m ++ [m] := List.range_succ
    rw [last, List.flatMap_append, ih, Nat.mul_succ, List.range_add]
    simp

theorem filter_range_add {p : Nat → Bool} {n : Nat} (d : Nat) (h : ∀ i, p i → i < n) :
    (List.range (n + d)).filter p = (List.range n).filter p := by
  rw [List.range_add, List.filter_append, List.append_right_eq_self, List.filter_eq_nil_iff]
  intro i hi hp
  obtain ⟨j, _, rfl⟩ := List.mem_map.mp hi
  have := h _ hp
  omega

/-- The members are the numbers below the width that the set contains. -/
theorem toList_eq (s : BitSet) : s.toList = (List.range s.width).filter s.contains := by
  have words : s.toList = (List.range (wordBits * s.words.size)).filter s.contains := by
    rw [toList, ← flatMap_words, List.filter_flatMap]
    congr 1
    exact funext s.inWord_eq
  rw [words, ← filter_range_add s.width fun i h => (lt_of_contains h).2,
    Nat.add_comm, filter_range_add _ fun i h => (lt_of_contains h).1]

/-! ### Many members, many sets -/

theorem Fits.foldl_insert {s : BitSet} {width : Nat} (h : s.Fits width) (members : List Nat) :
    (members.foldl BitSet.insert s).Fits width := by
  induction members generalizing s with
  | nil => exact h
  | cons i members ih => exact ih (h.insert i)

/-- Inserting numbers below the width adds them and nothing else. -/
theorem contains_foldl_insert {s : BitSet} {width : Nat} (h : s.Fits width) {members : List Nat}
    (below : ∀ i ∈ members, i < width) (j : Nat) :
    (members.foldl BitSet.insert s).contains j = true ↔ j ∈ members ∨ s.contains j = true := by
  induction members generalizing s with
  | nil => simp
  | cons i members ih =>
    rw [List.foldl_cons, ih (h.insert i) fun k hk => below k (by simp [hk]),
      contains_insert h (below i (by simp)), Bool.or_eq_true, decide_eq_true_eq, List.mem_cons,
      eq_comm (a := i)]
    exact or_left_comm.trans or_assoc.symm

theorem Fits.foldl_union {s : BitSet} {width : Nat} (h : s.Fits width) (sets : List BitSet) :
    (sets.foldl BitSet.union s).Fits width := by
  induction sets generalizing s with
  | nil => exact h
  | cons t sets ih => exact ih (h.union t)

/-- The union of sets of one width has the members of each. -/
theorem contains_foldl_union {s : BitSet} {width : Nat} (h : s.Fits width) {sets : List BitSet}
    (same : ∀ t ∈ sets, t.width = width) (i : Nat) :
    (sets.foldl BitSet.union s).contains i = true ↔
      s.contains i = true ∨ ∃ t ∈ sets, t.contains i = true := by
  induction sets generalizing s with
  | nil => simp
  | cons t sets ih =>
    rw [List.foldl_cons, ih (h.union t) fun u hu => same u (by simp [hu]),
      contains_union h (same t (by simp)), Bool.or_eq_true, or_assoc]
    simp

/-! ### Nothing beyond the width -/

/-- A set of the given width without a bit beyond it. -/
structure Proper (s : BitSet) (width : Nat) : Prop extends s.Fits width where
  beyond : ∀ i, width ≤ i → bit (s.word (i / wordBits)) i = false

/-- The numbers of a word. -/
theorem place (k : Nat) {j : Nat} (hj : j < wordBits) :
    (wordBits * k + j) / wordBits = k ∧ (wordBits * k + j) % wordBits = j := by
  simp only [wordBits] at hj ⊢
  omega

/-- Words are equal if their bits are. -/
theorem word_ext {v w : UInt64} (k : Nat)
    (h : ∀ i, i / wordBits = k → bit v i = bit w i) : v = w := by
  apply UInt64.toBitVec_inj.mp
  apply BitVec.eq_of_getLsbD_eq
  intro j hj
  have here := place k hj
  have same := h _ here.1
  rwa [bit, bit, here.2] at same

/-- Sets of one width with the same members are equal. -/
theorem Proper.ext {s t : BitSet} {width : Nat} (hs : s.Proper width) (ht : t.Proper width)
    (h : ∀ i, s.contains i = t.contains i) : s = t := by
  have bits : ∀ i, bit (s.word (i / wordBits)) i = bit (t.word (i / wordBits)) i := by
    intro i
    rcases Nat.lt_or_ge i width with lt | le
    · have members := h i
      rw [contains_eq, contains_eq, hs.width_eq, ht.width_eq] at members
      simpa [lt] using members
    · rw [hs.beyond i le, ht.beyond i le]
  have word : ∀ k, s.word k = t.word k := by
    intro k
    apply word_ext k
    rintro i rfl
    exact bits i
  obtain ⟨w, words⟩ := s
  obtain ⟨w', words'⟩ := t
  have widths : w = w' := hs.width_eq.trans ht.width_eq.symm
  have sizes : words.size = words'.size := hs.size_eq.trans ht.size_eq.symm
  rw [widths, BitSet.mk.injEq]
  refine ⟨rfl, Array.ext sizes fun k hk hk' => ?_⟩
  simpa [BitSet.word, hk, hk'] using word k

theorem proper_empty (width : Nat) : (empty width).Proper width where
  toFits := fits_empty width
  beyond i _ := by
    have : (empty width).word (i / wordBits) = 0 := by
      simp only [word, empty, Array.getElem?_replicate]
      split <;> rfl
    rw [this, bit_zero]

theorem Proper.insert {s : BitSet} {width i : Nat} (h : s.Proper width) (hi : i < width) :
    (s.insert i).Proper width where
  toFits := h.toFits.insert i
  beyond j hj := by
    have : i ≠ j := by omega
    rw [bit_insert (h.word_lt hi), h.beyond j hj]
    simp [this]

theorem Proper.erase {s : BitSet} {width i : Nat} (h : s.Proper width) (hi : i < width) :
    (s.erase i).Proper width where
  toFits := h.toFits.erase i
  beyond j hj := by rw [bit_erase (h.word_lt hi), h.beyond j hj, Bool.and_false]

theorem Proper.union {s t : BitSet} {width : Nat} (hs : s.Proper width) (ht : t.Proper width) :
    (s.union t).Proper width where
  toFits := hs.toFits.union t
  beyond i hi := by
    rw [word_union]
    split
    · rw [bit_or, hs.beyond i hi, ht.beyond i hi, Bool.or_false]
    · exact bit_zero i

theorem Proper.diff {s : BitSet} {width : Nat} (hs : s.Proper width) (t : BitSet) :
    (s.diff t).Proper width where
  toFits := hs.toFits.diff t
  beyond i hi := by
    rw [word_diff]
    split
    · rw [bit_and_not, hs.beyond i hi, Bool.false_and]
    · exact bit_zero i

theorem Proper.foldl_insert {s : BitSet} {width : Nat} (h : s.Proper width) {members : List Nat}
    (below : ∀ i ∈ members, i < width) : (members.foldl BitSet.insert s).Proper width := by
  induction members generalizing s with
  | nil => exact h
  | cons i members ih =>
    exact ih (h.insert (below i (by simp))) fun j hj => below j (by simp [hj])

theorem Proper.foldl_union {s : BitSet} {width : Nat} (h : s.Proper width) {sets : List BitSet}
    (proper : ∀ t ∈ sets, t.Proper width) : (sets.foldl BitSet.union s).Proper width := by
  induction sets generalizing s with
  | nil => exact h
  | cons t sets ih =>
    exact ih (h.union (proper t (by simp))) fun u hu => proper u (by simp [hu])

end Liveness.BitSet
