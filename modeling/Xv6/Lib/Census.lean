import Mathlib

/-!
# How often a value occurs

A table gives a value to each of finitely many places, and a table of tables to each place of
each row.  `occ` and `total` count the places with a given value.  When one place gets another
value the count of the old value goes down by one, and the count of the new one goes up.
-/

namespace Census

/-- Two sums that differ in one term. -/
theorem sum_change {ι : Type} [DecidableEq ι] {s : Finset ι} {f g : ι → Nat} {k : ι} (hk : k ∈ s)
    (h : ∀ j ∈ s, j ≠ k → g j = f j) : ∑ j ∈ s, g j + f k = ∑ j ∈ s, f j + g k := by
  have hrest : ∑ j ∈ s.erase k, g j = ∑ j ∈ s.erase k, f j :=
    Finset.sum_congr rfl fun j hj => h j (Finset.mem_of_mem_erase hj) (Finset.ne_of_mem_erase hj)
  rw [← Finset.add_sum_erase s g hk, ← Finset.add_sum_erase s f hk, hrest]
  omega

/-- The places below `n` with the value `b`. -/
def occ (n : Nat) (f : Nat → Nat) (b : Nat) : Nat := ∑ j ∈ Finset.range n, if f j = b then 1 else 0

variable {n m k a b j j' : Nat} {f f' : Nat → Nat}

theorem occ_congr (h : ∀ j < n, f' j = f j) : occ n f' b = occ n f b :=
  Finset.sum_congr rfl fun j hj => by rw [h j (Finset.mem_range.mp hj)]

/-- One place gets another value. -/
theorem occ_change (hk : k < n) (h : ∀ j < n, j ≠ k → f' j = f j) :
    occ n f' b + (if f k = b then 1 else 0) = occ n f b + if f' k = b then 1 else 0 := by
  refine sum_change (f := fun j => if f j = b then 1 else 0)
    (g := fun j => if f' j = b then 1 else 0) (Finset.mem_range.mpr hk) fun j hj hjk => ?_
  rw [h j (Finset.mem_range.mp hj) hjk]

theorem occ_pos : 0 < occ n f b ↔ ∃ j < n, f j = b := by
  constructor
  · intro h
    obtain ⟨j, hj, hne⟩ := Finset.exists_ne_zero_of_sum_ne_zero (Nat.pos_iff_ne_zero.mp h)
    exact ⟨j, Finset.mem_range.mp hj, by by_contra hb; simp [hb] at hne⟩
  · rintro ⟨j, hj, hb⟩
    exact Finset.sum_pos' (fun _ _ => Nat.zero_le _) ⟨j, Finset.mem_range.mpr hj, by simp [hb]⟩

/-- A value that occurs once has one place. -/
theorem eq_of_occ_le_one (h : occ n f b ≤ 1) (hj : j < n) (hj' : j' < n) (hb : f j = b)
    (hb' : f j' = b) : j = j' := by
  by_contra hne
  have hpair := Finset.sum_le_sum_of_subset (f := fun j => if f j = b then 1 else 0)
    (show {j, j'} ⊆ Finset.range n by simp [Finset.insert_subset_iff, hj, hj'])
  rw [Finset.sum_pair hne] at hpair
  unfold occ at h
  simp only [hb, hb', if_true] at hpair
  omega

/-! ## Tables of tables -/

/-- The places of the rows below `m`. -/
def total (m n : Nat) (f : Nat → Nat → Nat) (b : Nat) : Nat := ∑ i ∈ Finset.range m, occ n (f i) b

variable {t t' : Nat → Nat → Nat} {i i' : Nat}

theorem total_congr (h : ∀ i < m, ∀ j < n, t' i j = t i j) : total m n t' b = total m n t b :=
  Finset.sum_congr rfl fun i hi => occ_congr (h i (Finset.mem_range.mp hi))

/-- One row is replaced. -/
theorem total_change (hi : i < m) (h : ∀ j < m, j ≠ i → ∀ k < n, t' j k = t j k) :
    total m n t' b + occ n (t i) b = total m n t b + occ n (t' i) b :=
  sum_change (Finset.mem_range.mpr hi) fun j hj hji =>
    occ_congr (h j (Finset.mem_range.mp hj) hji)

theorem occ_le_total (hi : i < m) : occ n (t i) b ≤ total m n t b :=
  Finset.single_le_sum (f := fun i => occ n (t i) b) (fun _ _ => Nat.zero_le _)
    (Finset.mem_range.mpr hi)

theorem total_pos : 0 < total m n t b ↔ ∃ i < m, ∃ j < n, t i j = b := by
  constructor
  · intro h
    obtain ⟨i, hi, hne⟩ := Finset.exists_ne_zero_of_sum_ne_zero (Nat.pos_iff_ne_zero.mp h)
    exact ⟨i, Finset.mem_range.mp hi, occ_pos.mp (Nat.pos_iff_ne_zero.mpr hne)⟩
  · rintro ⟨i, hi, hj⟩
    exact Nat.lt_of_lt_of_le (occ_pos.mpr hj) (occ_le_total hi)

/-- A value that occurs once has one row and one place in it. -/
theorem eq_of_total_le_one (h : total m n t b ≤ 1) (hi : i < m) (hj : j < n) (hi' : i' < m)
    (hj' : j' < n) (hb : t i j = b) (hb' : t i' j' = b) : i = i' ∧ j = j' := by
  have hrow : i = i' := by
    by_contra hne
    have hpair := Finset.sum_le_sum_of_subset (f := fun i => occ n (t i) b)
      (show {i, i'} ⊆ Finset.range m by simp [Finset.insert_subset_iff, hi, hi'])
    rw [Finset.sum_pair hne] at hpair
    have h1 := occ_pos.mpr ⟨j, hj, hb⟩
    have h2 := occ_pos.mpr ⟨j', hj', hb'⟩
    unfold total at h
    omega
  subst hrow
  exact ⟨rfl, eq_of_occ_le_one ((occ_le_total hi).trans h) hj hj' hb hb'⟩

end Census
