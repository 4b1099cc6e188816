import Xv6.Lib.Census

/-!
# Allocation by marks

Numbers below `top` are marked or not.  Those below `lo` stay marked.  Each of the others is
marked exactly if it stands somewhere in a table, and none stands there twice.  An empty place of
the table is 0.  A number that is not marked may be marked and put into an empty place, and a
place may be cleared together with the mark of its number.
-/

namespace Census

/-- The marks agree with the table. -/
structure Ledger (lo top m n : Nat) (mark : Nat → Bool) (t : Nat → Nat → Nat) : Prop where
  pos : 0 < lo
  low : ∀ b < lo, mark b = true
  mark_iff : ∀ b, lo ≤ b → b < top → (mark b = true ↔ total m n t b = 1)
  once : ∀ b, b ≠ 0 → total m n t b ≤ 1
  range : ∀ i < m, ∀ k < n, t i k ≠ 0 → lo ≤ t i k ∧ t i k < top

namespace Ledger

variable {lo top m n i i' k k' b : Nat} {mark mark' : Nat → Bool} {t t' : Nat → Nat → Nat}

section

variable (h : Ledger lo top m n mark t)

include h

theorem congr (hlo : lo ≤ top) (hm : ∀ b < top, mark' b = mark b)
    (ht : ∀ i < m, ∀ k < n, t' i k = t i k) : Ledger lo top m n mark' t' := by
  refine ⟨h.pos, fun b hb => ?_, fun b hb hb' => ?_, fun b hb => ?_, fun i hi k hk h0 => ?_⟩
  · rw [hm b (by omega)]
    exact h.low b hb
  · rw [hm b hb', total_congr ht]
    exact h.mark_iff b hb hb'
  · rw [total_congr ht]
    exact h.once b hb
  · rw [ht i hi k hk] at h0 ⊢
    exact h.range i hi k hk h0

/-- A number stands at one place. -/
theorem eq_of_eq (hi : i < m) (hk : k < n) (hi' : i' < m) (hk' : k' < n) (h0 : t i k ≠ 0)
    (he : t i k = t i' k') : i = i' ∧ k = k' :=
  eq_of_total_le_one (h.once _ h0) hi hk hi' hk' rfl he.symm

theorem marked (hi : i < m) (hk : k < n) (h0 : t i k ≠ 0) :
    mark (t i k) = true := by
  obtain ⟨h1, h2⟩ := h.range i hi k hk h0
  have hpos : 0 < total m n t (t i k) := total_pos.mpr ⟨i, hi, k, hk, rfl⟩
  have hle := h.once _ h0
  exact (h.mark_iff _ h1 h2).mpr (by omega)

/-- A number that is not marked stands nowhere. -/
theorem ne_of_unmarked (hb : mark b = false) (hi : i < m) (hk : k < n) (h0 : t i k ≠ 0) :
    t i k ≠ b := by
  rintro rfl
  rw [h.marked hi hk h0] at hb
  cases hb

theorem le_of_unmarked (hb : mark b = false) : lo ≤ b := by
  by_contra hlt
  rw [h.low b (by omega)] at hb
  cases hb

/-- Mark a number and put it into an empty place. -/
theorem put (hb : mark b = false) (hbh : b < top) (hi : i < m) (hk : k < n) (h0 : t i k = 0)
    (hm : ∀ c < top, mark' c = if c = b then true else mark c)
    (ht : ∀ i' < m, ∀ k' < n, t' i' k' = if i' = i ∧ k' = k then b else t i' k') :
    Ledger lo top m n mark' t' := by
  have hlob := h.le_of_unmarked hb
  have hpos := h.pos
  have hself : t' i k = b := by rw [ht i hi k hk, if_pos ⟨rfl, rfl⟩]
  have hcount : ∀ c, c ≠ 0 → total m n t' c = total m n t c + if b = c then 1 else 0 := by
    intro c hc
    have htot : total m n t' c + occ n (t i) c = total m n t c + occ n (t' i) c :=
      total_change hi fun j hj hji k' hk' => by
      rw [ht j hj k' hk', if_neg fun he => hji he.1]
    have hrow : occ n (t' i) c + (if t i k = c then 1 else 0) =
        occ n (t i) c + if t' i k = c then 1 else 0 := occ_change hk fun k' hk' hkk => by
      rw [ht i hi k' hk', if_neg fun he => hkk he.2]
    rw [h0, if_neg (Ne.symm hc), hself] at hrow
    omega
  have hzero : total m n t b = 0 := by
    by_contra hne
    have hle := h.once b (by omega)
    rw [(h.mark_iff b hlob hbh).mpr (by omega)] at hb
    cases hb
  refine ⟨hpos, fun c hc => ?_, fun c hc hc' => ?_, fun c hc => ?_, fun i' hi' k' hk' hne => ?_⟩
  · rw [hm c (by omega), if_neg (by omega)]
    exact h.low c hc
  · rw [hm c hc', hcount c (by omega)]
    by_cases hcb : c = b
    · subst hcb
      simp [hzero]
    · rw [if_neg hcb, if_neg (Ne.symm hcb), Nat.add_zero]
      exact h.mark_iff c hc hc'
  · rw [hcount c hc]
    by_cases hcb : b = c
    · subst hcb
      simp [hzero]
    · rw [if_neg hcb, Nat.add_zero]
      exact h.once c hc
  · rw [ht i' hi' k' hk'] at hne ⊢
    split
    · exact ⟨hlob, hbh⟩
    · rename_i hn
      rw [if_neg hn] at hne
      exact h.range i' hi' k' hk' hne

end

end Ledger

end Census
