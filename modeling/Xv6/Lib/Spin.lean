import Mathlib

/-!
# Held locks

Spin locks as the list of the locks that are held, each with its holder.  A
lock is taken only when no one holds it, so it has one holder at a time.
-/

namespace Spin

variable {K C : Type}

/-- The locks that are held, with their holders. -/
abbrev Held (K C : Type) := List (K × C)

/-- No one holds the lock. -/
def Held.Free (h : Held K C) (k : K) : Prop := k ∉ h.map Prod.fst

instance [DecidableEq K] (h : Held K C) (k : K) : Decidable (h.Free k) :=
  inferInstanceAs (Decidable (k ∉ h.map Prod.fst))

/-- How many locks a holder has. -/
def Held.count [DecidableEq C] (h : Held K C) (c : C) : Nat := h.countP (·.2 = c)

/-- A lock has at most one holder. -/
def Held.Ok (h : Held K C) : Prop := (h.map Prod.fst).Nodup

variable {h : Held K C} {k k' : K} {c c' : C}

theorem Held.Free.notMem (hf : h.Free k) (c : C) : (k, c) ∉ h :=
  fun hm => hf (List.mem_map_of_mem hm)

theorem Held.Ok.holder_eq (ho : h.Ok) (h1 : (k, c) ∈ h) (h2 : (k, c') ∈ h) : c = c' := by
  have := List.inj_on_of_nodup_map ho h1 h2 rfl
  exact congrArg Prod.snd this

theorem Held.Ok.nodup (ho : h.Ok) : h.Nodup := List.Nodup.of_map _ ho

theorem Held.Ok.acquire (ho : h.Ok) (hf : h.Free k) (c : C) : Held.Ok ((k, c) :: h) := by
  unfold Held.Ok
  rw [List.map_cons, List.nodup_cons]
  exact ⟨hf, ho⟩

theorem Held.count_acquire [DecidableEq C] (h : Held K C) (k : K) (c c' : C) :
    Held.count ((k, c) :: h) c' = h.count c' + if c' = c then 1 else 0 := by
  by_cases hc : c' = c
  · subst hc
    simp [Held.count]
  · simp [Held.count, hc, Ne.symm hc]

variable [DecidableEq K] [DecidableEq C]

theorem Held.Ok.release (ho : h.Ok) (e : K × C) : Held.Ok (h.erase e) :=
  ho.sublist (List.erase_sublist.map _)

theorem Held.Ok.mem_release (ho : h.Ok) (hm : (k, c) ∈ h) :
    (k', c') ∈ h.erase (k, c) ↔ k' ≠ k ∧ (k', c') ∈ h := by
  rw [ho.nodup.mem_erase_iff]
  constructor
  · rintro ⟨hne, hm'⟩
    refine ⟨?_, hm'⟩
    rintro rfl
    exact hne (by rw [ho.holder_eq hm hm'])
  · rintro ⟨hne, hm'⟩
    refine ⟨?_, hm'⟩
    intro he
    exact hne (congrArg Prod.fst he)

theorem Held.count_release (hm : (k, c) ∈ h) (c' : C) :
    h.count c' = Held.count (h.erase (k, c)) c' + if c' = c then 1 else 0 := by
  have hp := (List.perm_cons_erase hm).countP_eq (·.2 = c')
  unfold Held.count
  rw [hp]
  exact Held.count_acquire (h.erase (k, c)) k c c'

theorem Held.notMem_of_count_zero (h0 : h.count c = 0) (k : K) : (k, c) ∉ h := by
  intro hm
  have := Held.count_release hm c
  rw [if_pos rfl] at this
  omega

/-- The holder of a lock has no other one. -/
theorem Held.Ok.count_eq_one_iff (ho : h.Ok) (hm : (k, c) ∈ h) :
    h.count c = 1 ↔ ∀ k', (k', c) ∈ h → k' = k := by
  have hcount := Held.count_release hm c
  rw [if_pos rfl] at hcount
  constructor
  · intro h1 k' hk'
    by_contra hne
    exact Held.notMem_of_count_zero (by omega) k' ((ho.mem_release hm).mpr ⟨hne, hk'⟩)
  · intro hall
    rw [hcount, Nat.add_eq_right, Held.count, List.countP_eq_zero]
    rintro ⟨k', c'⟩ he hc
    obtain rfl : c' = c := of_decide_eq_true hc
    obtain ⟨hne, hmem⟩ := (ho.mem_release hm).mp he
    exact hne (hall k' hmem)

end Spin
