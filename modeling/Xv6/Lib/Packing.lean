import Mathlib

/-!
# Blocks in a region

Blocks of given sizes are placed in a region at aligned addresses, so that no two of them
overlap.  Pushing them down from the top of the region one after the other, each to the next
aligned address, finds a place for them whenever there is one.
-/

namespace Packing

variable {al lo hi top n : Nat} {sizes sizes' : List Nat} {blocks : List (Nat × Nat)}

/-- A size rounded up to the alignment. -/
def room (al n : Nat) : Nat := (n + al - 1) / al * al

/-- The rounded sizes of all blocks. -/
def total (al : Nat) (sizes : List Nat) : Nat := (sizes.map (room al)).sum

@[simp] theorem total_nil : total al [] = 0 := rfl

@[simp] theorem total_cons : total al (n :: sizes) = room al n + total al sizes := by
  simp [total]

@[simp] theorem total_append : total al (sizes ++ sizes') = total al sizes + total al sizes' := by
  simp [total]

/-- Two blocks, each an address and a size, do not overlap. -/
def Apart (x y : Nat × Nat) : Prop := x.1 + x.2 ≤ y.1 ∨ y.1 + y.2 ≤ x.1

/-- Blocks in the region from `lo` to `hi`. -/
structure Packed (al lo hi : Nat) (blocks : List (Nat × Nat)) : Prop where
  aligned : ∀ x ∈ blocks, al ∣ x.1
  inside : ∀ x ∈ blocks, lo ≤ x.1 ∧ x.1 + x.2 ≤ hi
  apart : blocks.Pairwise Apart

/-- There is a place for blocks of these sizes. -/
def Fits (al lo hi : Nat) (sizes : List Nat) : Prop :=
  ∃ blocks : List (Nat × Nat), blocks.map Prod.snd = sizes ∧ Packed al lo hi blocks

/-- The blocks pushed down from `top`. -/
def push (al top : Nat) : List Nat → List (Nat × Nat)
  | [] => []
  | n :: sizes => (top - room al n, n) :: push al (top - room al n) sizes

@[simp] theorem push_sizes : (push al top sizes).map Prod.snd = sizes := by
  induction sizes generalizing top with
  | nil => rfl
  | cons n sizes ih => rw [push, List.map_cons, ih]

@[simp] theorem length_push : (push al top sizes).length = sizes.length := by
  rw [← List.length_map (f := Prod.snd), push_sizes]

theorem push_append :
    push al top (sizes ++ sizes') = push al top sizes ++ push al (top - total al sizes) sizes' := by
  induction sizes generalizing top with
  | nil => rfl
  | cons n sizes ih => rw [List.cons_append, push, ih, push, total_cons, Nat.sub_sub]; rfl

theorem dvd_room (al n : Nat) : al ∣ room al n := Nat.dvd_mul_left al _

theorem le_room (hal : 0 < al) (n : Nat) : n ≤ room al n := by
  have h := Nat.lt_mul_div_succ (n + al - 1) hal
  rw [room, Nat.mul_comm]
  rw [Nat.mul_add] at h
  omega

/-- The room of a block is the least aligned bound of its size. -/
theorem room_le (hal : 0 < al) {k : Nat} (hk : al ∣ k) (h : n ≤ k) : room al n ≤ k := by
  obtain ⟨c, rfl⟩ := hk
  rw [room, Nat.mul_comm]
  refine Nat.mul_le_mul_left al (Nat.le_of_lt_succ ((Nat.div_lt_iff_lt_mul hal).mpr ?_))
  rw [Nat.succ_mul, Nat.mul_comm]
  omega

theorem push_packed (hal : 0 < al) (htop : al ∣ top) (h : lo + total al sizes ≤ top) :
    Packed al lo top (push al top sizes) := by
  induction sizes generalizing top with
  | nil => exact ⟨by simp [push], by simp [push], .nil⟩
  | cons n sizes ih =>
      rw [total_cons] at h
      have hn := le_room hal n
      have hdvd := Nat.dvd_sub htop (dvd_room al n)
      obtain ⟨h1, h2, h3⟩ := ih hdvd (by omega)
      refine ⟨List.forall_mem_cons.mpr ⟨hdvd, h1⟩,
        List.forall_mem_cons.mpr ⟨⟨?_, ?_⟩, fun x hx => ?_⟩, .cons (fun x hx => ?_) h3⟩
      · show lo ≤ top - room al n
        omega
      · show top - room al n + n ≤ top
        omega
      · have hx := h2 x hx
        omega
      · exact .inr (h2 x hx).2

/-- The rooms of blocks do not overlap either. -/
theorem Packed.rooms (hal : 0 < al) (hhi : al ∣ hi) (h : Packed al lo hi blocks) :
    Packed al lo hi (blocks.map fun x => (x.1, room al x.2)) := by
  -- an aligned address that is not inside a block is not inside its room
  have hle : ∀ {a n b}, al ∣ a → al ∣ b → a + n ≤ b → a + room al n ≤ b := by
    intro a n b ha hb hab
    have hr := room_le (n := n) hal (Nat.dvd_sub hb ha) (by omega)
    omega
  refine ⟨?_, ?_, List.pairwise_map.mpr ?_⟩
  · intro y hy
    obtain ⟨x, hx, rfl⟩ := List.mem_map.mp hy
    exact h.aligned x hx
  · intro y hy
    obtain ⟨x, hx, rfl⟩ := List.mem_map.mp hy
    exact ⟨(h.inside x hx).1, hle (h.aligned x hx) hhi (h.inside x hx).2⟩
  · refine h.apart.imp_of_mem ?_
    rintro x y hx hy (hxy | hxy)
    · exact .inl (hle (h.aligned x hx) (h.aligned y hy) hxy)
    · exact .inr (hle (h.aligned y hy) (h.aligned x hx) hxy)

/-- The blocks have no more bytes than the region. -/
theorem Packed.sum_le (h : Packed al lo hi blocks) : (blocks.map Prod.snd).sum ≤ hi - lo := by
  have hnodup : (blocks.flatMap fun x => List.range' x.1 x.2).Nodup := by
    refine List.nodup_flatMap.mpr ⟨fun x _ => List.nodup_range', h.apart.imp ?_⟩
    intro x y hxy a ha hb
    rw [List.mem_range'_1] at ha hb
    rcases hxy with hxy | hxy <;> omega
  have hsub : (blocks.flatMap fun x => List.range' x.1 x.2) ⊆ List.range' lo (hi - lo) := by
    intro a ha
    obtain ⟨x, hx, ha⟩ := List.mem_flatMap.mp ha
    have hin := h.inside x hx
    rw [List.mem_range'_1] at ha ⊢
    omega
  have hlen := (List.subperm_of_subset hnodup hsub).length_le
  rw [List.length_flatMap, List.length_range'] at hlen
  simpa only [List.length_range'] using hlen

/-- Blocks can be placed exactly when their rooms are not too much together. -/
theorem fits_iff (hal : 0 < al) (hhi : al ∣ hi) (hlo : lo ≤ hi) :
    Fits al lo hi sizes ↔ lo + total al sizes ≤ hi := by
  constructor
  · rintro ⟨blocks, rfl, h⟩
    have hsum := (h.rooms hal hhi).sum_le
    rw [List.map_map] at hsum
    rw [total, List.map_map]
    have he : (Prod.snd ∘ fun x : Nat × Nat => (x.1, room al x.2)) = room al ∘ Prod.snd := rfl
    rw [he] at hsum
    omega
  · exact fun h => ⟨push al hi sizes, push_sizes, push_packed hal hhi h⟩

end Packing
