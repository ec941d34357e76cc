import Liveness.Error

/-! Computations that can fail, read backwards: from the result of the whole to the results
of its steps. -/
namespace Liveness
variable {ε α β : Type}

/-- If two steps succeed together, each of them does. -/
theorem bind_eq_ok {x : Except ε α} {f : α → Except ε β} {b : β} :
    (x >>= f) = .ok b ↔ ∃ a, x = .ok a ∧ f a = .ok b := by
  constructor
  · intro h
    cases x with
    | error e => cases h
    | ok a => exact ⟨a, rfl, h⟩
  · rintro ⟨a, rfl, h⟩
    exact h

theorem map_eq_ok {x : Except ε α} {f : α → β} {b : β} :
    x.map f = .ok b ↔ ∃ a, x = .ok a ∧ f a = b := by
  constructor
  · intro h
    cases x with
    | error e => cases h
    | ok a => exact ⟨a, rfl, Except.ok.inj h⟩
  · rintro ⟨a, rfl, rfl⟩
    rfl

/-- A result that passes a test is there. -/
theorem exists_ok_of_any {x : Except ε α} {f : α → Bool} (h : x.toOption.any f = true) :
    ∃ a, x = .ok a ∧ f a = true := by
  cases x with
  | error e => cases h
  | ok a => exact ⟨a, rfl, h⟩

/-- Two steps with a state in common: the second starts where the first ended, and is left out
if that failed. -/
theorem run_bind {σ : Type} (m : ExceptT ε (StateM σ) α) (k : α → ExceptT ε (StateM σ) β) (s : σ) :
    (m >>= k).run s =
      match m.run s with
      | (.ok a, t) => (k a).run t
      | (.error e, t) => (.error e, t) := by
  show ExceptT.bindCont k (m.run s).1 (m.run s).2 = _
  rcases m.run s with ⟨e | a, t⟩ <;> rfl

/-! ### Searches that can fail -/

/-- A search says no if every element does. -/
theorem anyM_eq_ok_false {q : α → Except ε Bool} {xs : List α}
    (h : xs.anyM q = .ok false) : ∀ x ∈ xs, q x = .ok false := by
  induction xs with
  | nil => simp
  | cons y ys ih =>
    obtain ⟨found, first, rest⟩ := bind_eq_ok.mp (show (q y >>= fun found => _) = _ from h)
    cases found with
    | true => cases rest
    | false =>
      intro x hx
      rcases List.mem_cons.mp hx with rfl | hx
      · exact first
      · exact ih rest x hx

/-- A search says yes at an element before which every one says no. -/
theorem anyM_filterMap_eq_ok_true {f : α → Option β} {q : β → Except ε Bool}
    {xs : List α} (h : (xs.filterMap f).anyM q = .ok true) :
    ∃ (i : Nat) (y : β), xs[i]?.bind f = some y ∧ q y = .ok true ∧
      ∀ j < i, ∀ z, xs[j]?.bind f = some z → q z = .ok false := by
  induction xs with
  | nil => cases h
  | cons x xs ih =>
    -- An element behind the first one: everything moves by one place.
    have behind (first : ∀ z, f x = some z → q z = .ok false)
        (h : (xs.filterMap f).anyM q = .ok true) :
        ∃ (i : Nat) (y : β), (x :: xs)[i]?.bind f = some y ∧ q y = .ok true ∧
          ∀ j < i, ∀ z, (x :: xs)[j]?.bind f = some z → q z = .ok false := by
      obtain ⟨i, y, here, yes, before⟩ := ih h
      refine ⟨i + 1, y, here, yes, fun j hj z hz => ?_⟩
      cases j with
      | zero => exact first z hz
      | succ j => exact before j (Nat.lt_of_succ_lt_succ hj) z hz
    cases hx : f x with
    | none =>
      rw [List.filterMap_cons_none hx] at h
      exact behind (fun z hz => by rw [hx] at hz; cases hz) h
    | some y =>
      rw [List.filterMap_cons_some hx] at h
      obtain ⟨found, first, rest⟩ := bind_eq_ok.mp (show (q y >>= fun found => _) = _ from h)
      cases found with
      | true => exact ⟨0, y, hx, first, fun j hj => absurd hj (Nat.not_lt_zero j)⟩
      | false => exact behind (fun z hz => Option.some.inj (hx.symm.trans hz) ▸ first) rest

end Liveness
