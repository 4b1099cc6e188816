import Mathlib

/-!
# Copies inside a memory

A memory has a cell for every 64-bit address.  A loop that copies a range of cells to another
range one by one reads cells that it may have written before.  Copied upwards, every cell is
read before it is written if the source, seen from the destination, does not reach around to
it; copied downwards, if the destination, seen from the source, does not.
-/

namespace Move

abbrev Addr := BitVec 64

variable {V : Type} {m : Addr → V} {d s a k : Addr} {n : Nat}

/-- `n` rounds of `*d++ = *s++`. -/
def up : Nat → Addr → Addr → (Addr → V) → Addr → V
  | 0, _, _, m => m
  | n + 1, d, s, m => up n (d + 1) (s + 1) (Function.update m d (m s))

/-- `n` rounds of `*--d = *--s`. -/
def down : Nat → Addr → Addr → (Addr → V) → Addr → V
  | 0, _, _, m => m
  | n + 1, d, s, m => down n (d - 1) (s - 1) (Function.update m (d - 1) (m (s - 1)))

/-- The memory with the `n` cells from `s` on copied to `d`. -/
def moved (n : Nat) (d s : Addr) (m : Addr → V) : Addr → V :=
  fun a => if (a - d).toNat < n then m (s + (a - d)) else m a

@[simp] theorem moved_zero : moved 0 d s m = m := by
  funext a
  rw [moved, if_neg (Nat.not_lt_zero _)]

/-- A cell of the range. -/
theorem moved_inside {i : Nat} (hi : i < n) (hn : n ≤ 2 ^ 64) :
    moved n d s m (d + BitVec.ofNat 64 i) = m (s + BitVec.ofNat 64 i) := by
  have hoff : d + BitVec.ofNat 64 i - d = BitVec.ofNat 64 i := by
    rw [BitVec.add_comm, BitVec.add_sub_cancel]
  rw [moved, hoff, BitVec.toNat_ofNat, Nat.mod_eq_of_lt (by omega), if_pos hi]

/-- A cell outside the range. -/
theorem moved_outside (h : ∀ i < n, a ≠ d + BitVec.ofNat 64 i) : moved n d s m a = m a := by
  refine if_neg fun hlt => h _ hlt ?_
  rw [BitVec.ofNat_toNat, BitVec.setWidth_eq, BitVec.add_comm, BitVec.sub_add_cancel]

/-! ## Offsets -/

theorem offset_succ (had : a ≠ d) (hn : n < 2 ^ 64) :
    (a - (d + 1)).toNat < n ↔ (a - d).toNat < n + 1 := by
  bv_omega

theorem offset_before (hn : n < 2 ^ 64) : ¬ (a - (a + 1)).toNat < n := by
  bv_omega

theorem add_offset_succ : s + 1 + (a - (d + 1)) = s + (a - d) := by
  bv_omega

/-- The source does not reach the first cell of the destination after the first round. -/
theorem read_ne_first (h : (s - d).toNat + (n + 1) ≤ 2 ^ 64) (had : a ≠ d)
    (hlt : (a - d).toNat < n + 1) : s + (a - d) ≠ d := by
  bv_omega

theorem offset_last (k : Addr) : d + k - d = k := by
  bv_omega

theorem offset_lt_last (had : a ≠ d + k) :
    (a - d).toNat < k.toNat ↔ (a - d).toNat < k.toNat + 1 := by
  bv_omega

/-- The source does not reach the last cell of the destination after the first round. -/
theorem read_ne_last (h : (d - s).toNat + (k.toNat + 1) ≤ 2 ^ 64) (hlt : (a - d).toNat < k.toNat) :
    s + (a - d) ≠ d + k := by
  bv_omega

/-! ## One round -/

/-- The first cell is copied, then the others. -/
theorem moved_succ_up (h : (s - d).toNat + (n + 1) ≤ 2 ^ 64) :
    moved n (d + 1) (s + 1) (Function.update m d (m s)) = moved (n + 1) d s m := by
  have hn : n < 2 ^ 64 := by omega
  funext a
  rw [moved, moved]
  by_cases had : a = d
  · subst had
    rw [if_neg (offset_before hn), Function.update_self, BitVec.sub_self, BitVec.add_zero,
      BitVec.toNat_zero, if_pos (Nat.succ_pos n)]
  · by_cases hlt : (a - d).toNat < n + 1
    · rw [if_pos ((offset_succ had hn).mpr hlt), if_pos hlt, add_offset_succ,
        Function.update_of_ne (read_ne_first h had hlt)]
    · rw [if_neg (mt (offset_succ had hn).mp hlt), if_neg hlt, Function.update_of_ne had]

/-- The last cell is copied, then the others. -/
theorem moved_succ_down (h : (d - s).toNat + (k.toNat + 1) ≤ 2 ^ 64) :
    moved k.toNat d s (Function.update m (d + k) (m (s + k))) = moved (k.toNat + 1) d s m := by
  funext a
  rw [moved, moved]
  by_cases had : a = d + k
  · subst had
    rw [offset_last, if_neg (Nat.lt_irrefl _), if_pos (Nat.lt_succ_self _), Function.update_self]
  · by_cases hlt : (a - d).toNat < k.toNat
    · rw [if_pos hlt, if_pos ((offset_lt_last had).mp hlt),
        Function.update_of_ne (read_ne_last h hlt)]
    · rw [if_neg hlt, if_neg (mt (offset_lt_last had).mpr hlt), Function.update_of_ne had]

/-! ## The loops -/

theorem add_one_sub_add_one : s + 1 - (d + 1) = s - d := by
  bv_omega

theorem add_succ_sub_one (x : Addr) (n : Nat) :
    x + BitVec.ofNat 64 (n + 1) - 1 = x + BitVec.ofNat 64 n := by
  rw [BitVec.ofNat_add]
  bv_omega

theorem up_eq_moved (h : (s - d).toNat + n ≤ 2 ^ 64) : up n d s m = moved n d s m := by
  induction n generalizing d s m with
  | zero => rw [up, moved_zero]
  | succ n ih =>
      have hrest : (s + 1 - (d + 1)).toNat + n ≤ 2 ^ 64 := by
        rw [add_one_sub_add_one]
        omega
      rw [up, ih hrest, moved_succ_up h]

theorem down_eq_moved (h : (d - s).toNat + n ≤ 2 ^ 64) :
    down n (d + BitVec.ofNat 64 n) (s + BitVec.ofNat 64 n) m = moved n d s m := by
  induction n generalizing m with
  | zero => rw [down, moved_zero]
  | succ n ih =>
      have hk : (BitVec.ofNat 64 n).toNat = n := by
        rw [BitVec.toNat_ofNat, Nat.mod_eq_of_lt (by omega)]
      have hlast := moved_succ_down (m := m) (k := BitVec.ofNat 64 n) (hk.symm ▸ h)
      rw [hk] at hlast
      rw [down, add_succ_sub_one, add_succ_sub_one, ih (by omega), hlast]

end Move
