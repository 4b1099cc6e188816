import Mathlib

/-!
# Circular lists with one link

Nodes with one link each.  `Path next a l b` says that the links lead from `a` through the
nodes `l` to `b`, so a circular list with the nodes `a :: l` is a path from `a` through `l`
back to `a`.  A change next to a node is made by turning the list until it starts there.
-/

universe u

namespace Cycle

variable {α : Type u} {next next' : α → α} {a a' b c r x : α} {l l' : List α} {n : Nat}

/-- The links lead from a node through a list of nodes to another node. -/
inductive Path (next : α → α) : α → List α → α → Prop where
  | last {a b : α} : next a = b → Path next a [] b
  | step {a b c : α} {l : List α} : next a = c → Path next c l b → Path next a (c :: l) b

theorem path_append : Path next a (l ++ c :: l') b ↔ Path next a l c ∧ Path next c l' b := by
  induction l generalizing a with
  | nil =>
      constructor
      · intro h
        cases h with
        | step ha h => exact ⟨.last ha, h⟩
      · rintro ⟨ha, h⟩
        cases ha with
        | last ha => exact .step ha h
  | cons d l ih =>
      constructor
      · intro h
        cases h with
        | step ha h => exact ⟨.step ha (ih.mp h).1, (ih.mp h).2⟩
      · rintro ⟨ha, h⟩
        cases ha with
        | step ha hl => exact .step ha (ih.mpr ⟨hl, h⟩)

/-- A circular list starts at any of its nodes. -/
theorem Path.rotate (h : Path next a (l ++ c :: l') a) : Path next c (l' ++ a :: l) c :=
  path_append.mpr (path_append.mp h).symm

/-- Another node takes the place of the first, and the others keep their links. -/
theorem Path.from (h : Path next a l b) (ha : next' a' = next a) (hl : ∀ x ∈ l, next' x = next x) :
    Path next' a' l b := by
  induction h generalizing a' with
  | last hb => exact .last (ha.trans hb)
  | step hc _ ih =>
      exact .step (ha.trans hc) (ih (hl _ List.mem_cons_self)
        fun x hx => hl x (List.mem_cons_of_mem _ hx))

theorem Path.congr (h : Path next a l b) (hl : ∀ x ∈ a :: l, next' x = next x) : Path next' a l b :=
  h.from (hl a List.mem_cons_self) fun x hx => hl x (List.mem_cons_of_mem _ hx)

/-- Follow the links up to a node that meets a test. -/
def scan (next : α → α) (test : α → Bool) : Nat → α → Option α
  | 0, _ => none
  | n + 1, a => if test a then some a else scan next test n (next a)

theorem scan_test {test : α → Bool} (h : scan next test n a = some r) : test r = true := by
  induction n generalizing a with
  | zero => cases h
  | succ n ih =>
      unfold scan at h
      split at h
      · cases h
        assumption
      · exact ih h

theorem scan_isSome {test : α → Bool} {t : α} (h : Path next a l b) (ht : t ∈ a :: l)
    (htest : test t = true) (hn : l.length < n) : (scan next test n a).isSome := by
  induction h generalizing n with
  | last hb =>
      obtain ⟨n, rfl⟩ : ∃ k, n = k + 1 := ⟨n - 1, by omega⟩
      rw [List.mem_singleton.mp ht] at htest
      rw [scan, if_pos htest]
      rfl
  | @step a b c l hc _ ih =>
      obtain ⟨n, rfl⟩ : ∃ k, n = k + 1 := ⟨n - 1, by omega⟩
      unfold scan
      split
      · rfl
      · rename_i hnot
        rcases List.mem_cons.mp ht with rfl | ht
        · exact absurd htest hnot
        · rw [hc]
          rw [List.length_cons] at hn
          exact ih ht (by omega)

/-! ## Circular lists -/

/-- A circular list, seen from one of its nodes. -/
theorem Path.turn (h : Path next a l a) (hx : x ∈ a :: l) :
    ∃ l', Path next x l' x ∧ (x :: l').Perm (a :: l) := by
  rcases List.mem_cons.mp hx with rfl | hx
  · exact ⟨l, h, .refl _⟩
  · obtain ⟨l₁, l₂, rfl⟩ := List.append_of_mem hx
    exact ⟨l₂ ++ a :: l₁, h.rotate, (List.perm_append_comm : ((x :: l₂) ++ (a :: l₁)).Perm _)⟩

theorem Path.next_mem (h : Path next a l a) (hx : x ∈ a :: l) : next x ∈ a :: l := by
  obtain ⟨l', h', hp⟩ := h.turn hx
  refine hp.mem_iff.mp ?_
  cases h' with
  | last hb => rw [hb]; exact List.mem_cons_self
  | step hc _ => rw [hc]; exact List.mem_cons_of_mem _ List.mem_cons_self

theorem scan_mem {test : α → Bool} (h : Path next a l a) (hx : x ∈ a :: l)
    (hs : scan next test n x = some r) : r ∈ a :: l := by
  induction n generalizing x with
  | zero => cases hs
  | succ n ih =>
      unfold scan at hs
      split at hs
      · cases hs
        exact hx
      · exact ih (h.next_mem hx) hs

end Cycle
