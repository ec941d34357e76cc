/-! Loops that nothing cuts off, and walks with a stack.

A loop makes one round again and again. It need not come to an end, and `Ends` says that it does,
and with which result.

A walk keeps a stack of places to visit, takes the last one off and puts those inside it on, in
reverse, so that the first of them comes next. The stack is a forest that is still to be walked,
last tree first. What a place adds to the result does not depend on what lies under it on the stack
(`ends_of_top`), so where nothing is inside itself a walk works off its stack tree by tree, and
finds what a recursion over the trees finds. -/
namespace Liveness.Loop

/-- What a round of a loop comes to. -/
inductive Round (σ : Type u) (α : Type v) where
  | again (state : σ)
  | over (result : α)

/-- A loop that is in a state comes to its end, with a result. -/
inductive Ends {σ : Type u} {α : Type v} (round : σ → Round σ α) : σ → α → Prop
  | over {s : σ} {a : α} : round s = .over a → Ends round s a
  | again {s s' : σ} {a : α} : round s = .again s' → Ends round s' a → Ends round s a

/-! ### Walks with a stack -/

/-- The places to visit, the next one last, and those found so far. -/
structure StackWalk (α : Type u) where
  stack : List α
  found : List α

section Walk
variable {α : Type u} (inside : α → List α) (skips wants : α → Bool)

/-- The next place is noted if it is wanted, and those inside it are visited after it. If it is to
be skipped, so is everything inside. -/
def stackRound (w : StackWalk α) : Round (StackWalk α) (List α) :=
  match w.stack.getLast? with
  | none => .over w.found
  | some n =>
    if skips n then .again { w with stack := w.stack.dropLast }
    else .again
      { stack := w.stack.dropLast ++ (inside n).reverse
        found := if wants n then w.found ++ [n] else w.found }

/-- A recursion that finds nothing at a place that is skipped, and else the place, if it is wanted,
and what it finds inside. -/
def Finds (finds : α → List α) : Prop :=
  ∀ n, finds n =
    if skips n then [] else (if wants n then [n] else []) ++ (inside n).flatMap finds

theorem stackRound_nil (found : List α) :
    stackRound inside skips wants ⟨[], found⟩ = .over found := rfl

theorem stackRound_concat (stack found : List α) (n : α) :
    stackRound inside skips wants ⟨stack ++ [n], found⟩ =
      if skips n then .again ⟨stack, found⟩
      else .again ⟨stack ++ (inside n).reverse, if wants n then found ++ [n] else found⟩ := by
  simp [stackRound]

end Walk

variable {α : Type u} {inside : α → List α} {skips wants : α → Bool} {finds : α → List α}
  {result : List α}

/-- If each of some places on top of the stack is worked off, so are all of them. -/
theorem ends_of_each {round : StackWalk α → Round (StackWalk α) (List α)} (ns : List α)
    (each : ∀ n ∈ ns, ∀ stack found,
      Ends round ⟨stack, found ++ finds n⟩ result → Ends round ⟨stack ++ [n], found⟩ result)
    (stack found : List α) (rest : Ends round ⟨stack, found ++ ns.flatMap finds⟩ result) :
    Ends round ⟨stack ++ ns.reverse, found⟩ result := by
  induction ns generalizing found with
  | nil => simpa using rest
  | cons n ns ih =>
    -- The first place was put on the stack last, so the others lie under it.
    rw [List.reverse_cons, ← List.append_assoc]
    refine each n (by simp) _ _ (ih (fun m hm => each m (by simp [hm])) _ ?_)
    rwa [List.append_assoc, ← List.flatMap_cons]

/-- A walk with a place on top of its stack finds what is to be found there, and goes on with the
rest of the stack. -/
theorem ends_of_top (wf : WellFounded fun m n => m ∈ inside n)
    (h : Finds inside skips wants finds) (n : α) :
    ∀ stack found, Ends (stackRound inside skips wants) ⟨stack, found ++ finds n⟩ result →
      Ends (stackRound inside skips wants) ⟨stack ++ [n], found⟩ result := by
  -- The rest of the stack is only handed on, so a place inside may have it with its siblings on top.
  induction n using wf.induction with
  | _ n ih =>
    intro stack found rest
    rw [h n] at rest
    have round := stackRound_concat inside skips wants stack found n
    by_cases skipped : skips n = true
    · rw [if_pos skipped] at rest round
      exact .again round (by simpa using rest)
    · rw [if_neg skipped] at rest round
      refine .again round (ends_of_each (inside n) ih _ _ ?_)
      by_cases wanted : wants n = true <;> simpa [wanted] using rest

/-- **A walk works off its stack tree by tree**, the last one first. -/
theorem ends_stackRound (wf : WellFounded fun m n => m ∈ inside n)
    (h : Finds inside skips wants finds) (stack found : List α) :
    Ends (stackRound inside skips wants) ⟨stack, found⟩ (found ++ stack.reverse.flatMap finds) := by
  have all := ends_of_each stack.reverse (fun n _ => ends_of_top wf h n) [] found
    (.over (stackRound_nil inside skips wants _))
  simpa using all

theorem ends_from_root (wf : WellFounded fun m n => m ∈ inside n)
    (h : Finds inside skips wants finds) (root : α) (found : List α) :
    Ends (stackRound inside skips wants) ⟨[root], found⟩ (found ++ finds root) := by
  simpa using ends_stackRound wf h [root] found

end Liveness.Loop
