import Liveness.Table

/-! Tables after additions, and tables in which no key stands twice.

Looking a key up and asking for its position find the first entry with the key. What is found after
an addition is what was found before it, or else the entry added; where a key gets a new value in
place, that value is found. If no key stands twice the first entry is the only one, so that keys and
positions lead to each other. Adding an entry unless its key is present keeps a table like that, and
takes no entry from its place. -/
namespace Liveness.Table
variable {κ : Type u} {α : Type v} {t : Table κ α} {k : κ} {a : α} {i : Nat}

theorem getElem?_keys (h : t.entry? i = some (k, a)) : t.keys[i]? = some k := by
  rw [keys, List.getElem?_map]
  exact congrArg (Option.map Prod.fst) h

@[simp] theorem entries_push (t : Table κ α) (k : κ) (v : α) :
    (t.push k v).entries = t.entries ++ [(k, v)] := rfl

theorem keys_push (t : Table κ α) (k : κ) (a : α) : (t.push k a).keys = t.keys ++ [k] := by
  simp [keys, push]

variable [BEq κ]

@[simp] theorem find?_empty (k : κ) : (empty : Table κ α).find? k = none := rfl

theorem lt_size_of_idxOf? (h : t.idxOf? k = some i) : i < t.size := by
  obtain ⟨lt, _⟩ := List.findIdx?_eq_some_iff_getElem.mp h
  exact lt

/-- Entries keep their places. -/
theorem entries_insertNew (t : Table κ α) (k : κ) (a : α) :
    t.entries <+: (t.insertNew k a).entries := by
  rw [insertNew]
  split
  · exact List.prefix_refl _
  · exact List.prefix_append _ _

/-! ### Looking up after an addition -/

theorem find?_push (t : Table κ α) (k k' : κ) (v : α) :
    (t.push k v).find? k' = (t.find? k').or (if k' == k then some v else none) := by
  simp only [find?, entries_push, List.lookup_append]
  congr 1
  cases h : k' == k <;> simp [List.lookup_cons, h]

variable [LawfulBEq κ]

theorem find?_insertNew (t : Table κ α) (k k' : κ) (v : α) :
    (t.insertNew k v).find? k' = (t.find? k').or (if k' == k then some v else none) := by
  unfold insertNew
  split
  · next h =>
    cases hk : k' == k
    · simp
    · have : k' = k := eq_of_beq hk
      subst this
      simp only [contains] at h
      obtain ⟨w, hw⟩ := Option.isSome_iff_exists.mp h
      simp [hw]
  · exact find?_push t k k' v

theorem lookup_map_replace (es : List (κ × α)) (k k' : κ) (v : α) :
    (es.map fun e => if e.1 == k then (e.1, v) else e).lookup k' =
      if k' == k then (es.lookup k').map fun _ => v else es.lookup k' := by
  induction es with
  | nil => simp
  | cons e es ih =>
    obtain ⟨x, w⟩ := e
    have head : (if x == k then (x, v) else (x, w)) = (x, if x == k then v else w) := by
      split <;> rfl
    simp only [List.map_cons, head, List.lookup_cons]
    cases hkx : k' == x
    · simpa using ih
    · have : k' = x := eq_of_beq hkx
      subst this
      cases k' == k <;> simp

theorem find?_insert (t : Table κ α) (k k' : κ) (v : α) :
    (t.insert k v).find? k' = if k' == k then some v else t.find? k' := by
  unfold insert
  split
  · next h =>
    simp only [find?, lookup_map_replace]
    simp only [contains, find?] at h
    obtain ⟨w, hw⟩ := Option.isSome_iff_exists.mp h
    by_cases hk : k' = k
    · subst hk
      simp [hw]
    · simp [hk]
  · next h =>
    rw [find?_push]
    simp only [contains, Bool.not_eq_true, Option.isSome_eq_false_iff, Option.isNone_iff_eq_none] at h
    by_cases hk : k' = k
    · subst hk
      simp [h]
    · simp [hk]

/-! ### Keys that stand once -/

theorem find?_eq_some_iff (once : t.keys.Nodup) : t.find? k = some a ↔ (k, a) ∈ t.entries := by
  obtain ⟨entries⟩ := t
  unfold Table.keys at once
  unfold Table.find?
  induction entries with
  | nil => simp
  | cons e rest ih =>
    obtain ⟨k', a'⟩ := e
    rw [List.map_cons, List.nodup_cons] at once
    rw [List.lookup_cons, List.mem_cons]
    by_cases same : k = k'
    · subst same
      have absent : (k, a) ∉ rest := fun h => once.1 (List.mem_map.mpr ⟨_, h, rfl⟩)
      simp [absent, eq_comm]
    · have other : (k == k') = false := beq_eq_false_iff_ne.mpr same
      rw [other]
      simpa [same] using ih once.2

theorem find?_eq_none_iff : t.find? k = none ↔ k ∉ t.keys := by
  rw [Table.find?, Table.keys, List.lookup_eq_none_iff, List.mem_map]
  constructor
  · rintro other ⟨e, he, rfl⟩
    simpa using other e he
  · intro absent e he
    rw [bne_iff_ne]
    rintro rfl
    exact absent ⟨e, he, rfl⟩

theorem nodup_keys_insertNew (once : t.keys.Nodup) : (t.insertNew k a).keys.Nodup := by
  rw [insertNew]
  split
  · exact once
  · next absent =>
    have new : k ∉ t.keys := by
      rw [← find?_eq_none_iff]
      simpa [contains] using absent
    rw [keys_push, List.nodup_append]
    refine ⟨once, by simp, ?_⟩
    intro x hx y hy same
    rw [same, List.mem_singleton.mp hy] at hx
    exact new hx

/-! ### Positions -/

theorem entry?_of_idxOf? (h : t.idxOf? k = some i) : ∃ a, t.entry? i = some (k, a) := by
  obtain ⟨lt, hk, _⟩ := List.findIdx?_eq_some_iff_getElem.mp h
  have key : t.entries[i].1 = k := eq_of_beq hk
  have there : t.entry? i = some t.entries[i] := List.getElem?_eq_getElem lt
  exact ⟨t.entries[i].2, by rw [there, ← key]⟩

theorem idxOf?_injective {k' : κ} (h : t.idxOf? k = some i) (h' : t.idxOf? k' = some i) :
    k = k' := by
  obtain ⟨_, hk⟩ := entry?_of_idxOf? h
  obtain ⟨_, hk'⟩ := entry?_of_idxOf? h'
  exact congrArg Prod.fst (Option.some.inj (hk.symm.trans hk'))

theorem exists_idxOf? (h : k ∈ t.keys) : ∃ i, t.idxOf? k = some i := by
  obtain ⟨e, he, rfl⟩ := List.mem_map.mp h
  have found : t.entries.any (·.1 == e.1) = true := List.any_eq_true.mpr ⟨e, he, by simp⟩
  exact Option.isSome_iff_exists.mp (List.findIdx?_isSome.trans found)

/-- The key of an entry leads back to its position. -/
theorem idxOf?_of_entry? (once : t.keys.Nodup) (h : t.entry? i = some (k, a)) :
    t.idxOf? k = some i := by
  have key := getElem?_keys h
  obtain ⟨j, hj⟩ := exists_idxOf? (List.mem_of_getElem? key)
  obtain ⟨_, entry⟩ := entry?_of_idxOf? hj
  obtain ⟨lt, _⟩ := List.getElem?_eq_some_iff.mp key
  have same : i = j := (List.getElem?_inj lt once).mp (key.trans (getElem?_keys entry).symm)
  rw [hj, same]

end Liveness.Table
