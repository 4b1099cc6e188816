import Mathlib

/-!
# Extents

Pieces of an address space.  `cover es x` is the number of extents of a list that have the
address `x`.  It says in one number that extents do not overlap and what they make up, and
it does not change when an extent is cut in two.
-/

structure Extent where
  start : Nat
  len : Nat

namespace Extent

variable {e f : Extent} {es es' : List Extent} {x : Nat}

def has (e : Extent) (x : Nat) : Bool := e.start ≤ x && x < e.start + e.len

theorem has_iff : e.has x = true ↔ e.start ≤ x ∧ x < e.start + e.len := by
  simp [has]

/-- How many extents have an address. -/
def cover (es : List Extent) (x : Nat) : Nat := es.countP (·.has x)

theorem cover_cons : cover (e :: es) x = cover es x + if e.has x then 1 else 0 := List.countP_cons

theorem cover_append : cover (es ++ es') x = cover es x + cover es' x := List.countP_append

theorem cover_perm (h : es.Perm es') : cover es x = cover es' x := h.countP_eq _

theorem cover_pos : 0 < cover es x ↔ ∃ e ∈ es, e.has x = true := List.countP_pos_iff

/-- An extent is cut in two. -/
theorem cover_split (a m n : Nat) :
    cover (⟨a, m + n⟩ :: es) x = cover (⟨a, m⟩ :: ⟨a + m, n⟩ :: es) x := by
  have hsplit : (if has ⟨a, m + n⟩ x then 1 else 0) =
      (if has ⟨a + m, n⟩ x then 1 else 0) + if has ⟨a, m⟩ x then 1 else 0 := by
    simp only [has_iff]
    split_ifs <;> omega
  rw [cover_cons, cover_cons, cover_cons, hsplit]
  omega

theorem cover_empty (a : Nat) : cover (⟨a, 0⟩ :: es) x = cover es x := by
  rw [cover_cons, if_neg (by rw [has_iff]; simp only; omega)]
  rfl

/-- Two extents that do not overlap. -/
theorem apart_of_cover_le (h : ∀ x, cover (e :: f :: es) x ≤ 1) (he : 0 < e.len) (hf : 0 < f.len) :
    e.start + e.len ≤ f.start ∨ f.start + f.len ≤ e.start := by
  by_contra hno
  push Not at hno
  have hboth : ∃ x, e.has x = true ∧ f.has x = true := by
    refine ⟨max e.start f.start, ?_⟩
    rw [has_iff, has_iff]
    omega
  obtain ⟨x, hex, hfx⟩ := hboth
  have hx := h x
  rw [cover_cons, cover_cons, if_pos hex, if_pos hfx] at hx
  omega

end Extent
