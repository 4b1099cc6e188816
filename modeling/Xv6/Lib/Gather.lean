import Mathlib

/-!
# What the members of a finite family hold together

`gather f` lists what `f 0`, `f 1`, … hold.  When one member changes what it holds,
the whole changes by just that.
-/

namespace Gather

variable {n : Nat} {α β : Type}

/-- All items, member by member. -/
def gather (f : Fin n → List α) : List α := (List.finRange n).flatMap f

variable {f g : Fin n → List α} {p q : Fin n} {x : α}

theorem mem_gather : x ∈ gather f ↔ ∃ p, x ∈ f p := by simp [gather]

theorem gather_nil (h : ∀ p, f p = []) : gather f = [] := by
  simp [gather, List.flatMap_eq_nil_iff, h]

theorem gather_perm (f : Fin n → List α) (p : Fin n) :
    (gather f).Perm (f p ++ ((List.finRange n).erase p).flatMap f) := by
  have hp := (List.perm_cons_erase (List.mem_finRange p)).flatMap_right f
  rwa [List.flatMap_cons] at hp

theorem others_congr (h : ∀ q, q ≠ p → g q = f q) :
    ((List.finRange n).erase p).flatMap g = ((List.finRange n).erase p).flatMap f := by
  apply List.flatMap_congr
  intro q hq
  exact h q ((List.nodup_finRange n).mem_erase_iff.mp hq).1

/-- The member `p` changes what it holds. -/
theorem gather_change (h : ∀ q, q ≠ p → g q = f q) : (gather g ++ f p).Perm (gather f ++ g p) := by
  have hg := (gather_perm g p).append_right (f p)
  have hf := (gather_perm f p).append_right (g p)
  rw [others_congr h] at hg
  refine hg.trans (List.Perm.trans ?_ hf.symm)
  rw [List.append_assoc, List.append_assoc]
  refine (List.perm_append_comm_assoc _ _ _).trans ?_
  refine List.Perm.trans ?_ (List.perm_append_comm_assoc _ _ _).symm
  exact List.Perm.append_left _ List.perm_append_comm

/-- The member `p` gets items. -/
theorem gather_put (h : ∀ q, q ≠ p → g q = f q) (hp : f p = []) :
    (gather g).Perm (gather f ++ g p) := by
  have hc := gather_change h
  rwa [hp, List.append_nil] at hc

/-- The member `p` gives all its items away. -/
theorem gather_take (h : ∀ q, q ≠ p → g q = f q) (hp : g p = []) :
    (gather f).Perm (gather g ++ f p) := by
  have hc := gather_change h
  rw [hp, List.append_nil] at hc
  exact hc.symm

theorem nodup_of_gather (h : (gather f).Nodup) (p : Fin n) : (f p).Nodup :=
  (List.nodup_append.1 ((gather_perm f p).nodup_iff.1 h)).1

/-- Different members hold different items. -/
theorem eq_of_mem_gather (h : (gather f).Nodup) (hp : x ∈ f p) (hq : x ∈ f q) : p = q := by
  by_contra hne
  have hd := (List.nodup_append.1 ((gather_perm f p).nodup_iff.1 h)).2.2
  refine hd x hp x (List.mem_flatMap.2 ⟨q, ?_, hq⟩) rfl
  exact (List.nodup_finRange n).mem_erase_iff.mpr ⟨Ne.symm hne, List.mem_finRange q⟩

/-- If every member has `c` items of one kind for each of the other, so does the whole. -/
theorem length_gather_le {f : Fin n → List α} {g : Fin n → List β} (c : Nat)
    (h : ∀ p, c * (f p).length ≤ (g p).length) : c * (gather f).length ≤ (gather g).length := by
  have hl : ∀ l : List (Fin n), c * (l.flatMap f).length ≤ (l.flatMap g).length := by
    intro l
    induction l with
    | nil => simp
    | cons p l ih =>
        rw [List.flatMap_cons, List.flatMap_cons, List.length_append, List.length_append,
          Nat.mul_add]
        exact Nat.add_le_add (h p) ih
  exact hl _

end Gather
