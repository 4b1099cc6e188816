import Mathlib

/-!
# Counting references

Slots hold references to objects.  `refs o k` is the number of slots that hold
`k`, and `held o hand k` also counts the references that code has in hand while
it moves them.  Filling and clearing a slot move a reference between the two.
-/

namespace RefCount

variable {ι κ : Type} [DecidableEq κ]

/-- One reference more to `k`. -/
def plus (r : κ → Nat) (k : κ) : κ → Nat := fun x => r x + if x = k then 1 else 0

variable {r : κ → Nat} {k k' : κ}

@[simp] theorem plus_self : plus r k k = r k + 1 := by simp [plus]

theorem plus_of_ne (h : k' ≠ k) : plus r k k' = r k' := by simp [plus, h]

theorem plus_comm : plus (plus r k) k' = plus (plus r k') k := by
  funext x
  simp only [plus]
  omega

variable [Fintype ι]

/-- The number of slots that hold `k`. -/
def refs (o : ι → Option κ) (k : κ) : Nat := (Finset.univ.filter fun i => o i = some k).card

/-- The references of slots and those in hand. -/
def held (o : ι → Option κ) (hand : List κ) (k : κ) : Nat := refs o k + hand.count k

variable {o : ι → Option κ} {hand : List κ} {i : ι}

theorem refs_pos (h : o i = some k) : 0 < refs o k :=
  Finset.card_pos.mpr ⟨i, Finset.mem_filter.mpr ⟨Finset.mem_univ i, h⟩⟩

theorem refs_eq_zero : refs o k = 0 ↔ ∀ i, o i ≠ some k := by
  simp [refs, Finset.filter_eq_empty_iff]

theorem held_cons : held o (k :: hand) = plus (held o hand) k := by
  funext x
  simp only [held, plus, List.count_cons, beq_iff_eq, eq_comm (a := k)]
  omega

theorem held_pos (h : o i = some k) : 0 < held o hand k := by
  have hp := refs_pos h
  rw [held]
  omega

variable [DecidableEq ι]

/-- A free slot is filled. -/
theorem refs_put (h : o i = none) : refs (Function.update o i (some k)) = plus (refs o) k := by
  funext x
  by_cases hx : x = k
  · subst hx
    have he : (Finset.univ.filter fun j => Function.update o i (some x) j = some x) =
        insert i (Finset.univ.filter fun j => o j = some x) := by
      ext j
      by_cases hj : j = i
      · simp [hj]
      · simp [hj]
    rw [plus_self, refs, he, Finset.card_insert_of_notMem (by simp [h]), refs]
  · have he : (Finset.univ.filter fun j => Function.update o i (some k) j = some x) =
        Finset.univ.filter fun j => o j = some x := by
      ext j
      by_cases hj : j = i
      · simp [hj, h, Ne.symm hx]
      · simp [Function.update_of_ne hj]
    rw [plus_of_ne hx, refs, he, refs]

/-- A slot is cleared. -/
theorem refs_take (h : o i = some k) : plus (refs (Function.update o i none)) k = refs o := by
  have hp : refs (Function.update (Function.update o i none) i (some k)) = _ :=
    refs_put (Function.update_self i none o)
  rw [← hp, Function.update_idem, ← h, Function.update_eq_self]

theorem held_put (h : o i = none) :
    held (Function.update o i (some k)) hand = held o (k :: hand) := by
  rw [held_cons]
  funext x
  rw [held, refs_put h, plus, plus, held]
  omega

theorem held_take (h : o i = some k) :
    held (Function.update o i none) (k :: hand) = held o hand := by
  rw [held_cons]
  funext x
  rw [held, ← refs_take h, plus, plus, held]
  omega

end RefCount
