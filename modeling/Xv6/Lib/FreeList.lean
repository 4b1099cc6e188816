import Mathlib

/-!
# Cells, a free list inside them, and who owns which cell

A heap has cells and a free list.  The list is threaded through the free cells
themselves: the contents of a free cell name the next one.  Code owns a list of
cells `A` (`Owned`) if these cells and the free ones are all different.  A run
`Turns` the cells `A` into the cells `A'` if `A'` and the cells free afterwards
are those of `A` and those free before, and nothing else was written.  Runs
compose, and a run says nothing about cells that it does not own, so these stay
as they are (`Turns.frame`).
-/

namespace FreeList

/-- The link that a free cell holds, and the end of the list. -/
class Links (K V : Type) where
  null : K
  next : V → K

/-- The cells and the head of the free list. -/
structure Heap (K V : Type) where
  mem : K → V
  free : K

variable {K V : Type}

/-- Write one cell. -/
def Heap.set [DecidableEq K] (h : Heap K V) (a : K) (v : V) : Heap K V :=
  ⟨Function.update h.mem a v, h.free⟩

section

variable [DecidableEq K] {m : K → V} {a b : K} {l : List K}

theorem Heap.mem_set_self (h : Heap K V) (v : V) : (h.set a v).mem a = v :=
  Function.update_self _ _ _

theorem Heap.mem_set_of_ne (h : Heap K V) (v : V) (hb : b ≠ a) : (h.set a v).mem b = h.mem b :=
  Function.update_of_ne hb _ _

theorem Heap.set_set (h : Heap K V) (v v' : V) : (h.set a v).set a v' = h.set a v' := by
  rw [Heap.set, Heap.set, Heap.set, Function.update_idem]

theorem update_of_mem (ha : a ∉ l) (hb : b ∈ l) (v : V) : Function.update m a v b = m b := by
  refine Function.update_of_ne ?_ v m
  rintro rfl
  exact ha hb

theorem update_of_notMem (ha : a ∈ l) (hb : b ∉ l) (v : V) : Function.update m a v b = m b := by
  refine Function.update_of_ne ?_ v m
  rintro rfl
  exact hb ha

end

variable [Links K V] {m : K → V} {l : List K} {k : K}

/-! ## The list -/

/-- The free list from a cell on. -/
inductive Chain (m : K → V) : K → List K → Prop where
  | nil : Chain m (Links.null V) []
  | cons {k : K} {l : List K} :
      k ≠ Links.null V → Chain m (Links.next (m k)) l → Chain m k (k :: l)

theorem Chain.eq_nil (h : Chain m (Links.null V) l) : l = [] := by
  cases h with
  | nil => rfl
  | cons hk _ => exact absurd rfl hk

theorem Chain.eq_cons (h : Chain m k l) (hk : k ≠ Links.null V) :
    ∃ l', l = k :: l' ∧ Chain m (Links.next (m k)) l' := by
  cases h with
  | nil => exact absurd rfl hk
  | cons _ h => exact ⟨_, rfl, h⟩

theorem Chain.unique {l' : List K} (h : Chain m k l) (h' : Chain m k l') : l = l' := by
  induction h generalizing l' with
  | nil => exact h'.eq_nil.symm
  | cons hk _ ih =>
      obtain ⟨l₁, rfl, h₁⟩ := h'.eq_cons hk
      rw [ih h₁]

/-- The list is as long as the links can be followed. -/
theorem Chain.le_length {n : Nat} (h : Chain m k l)
    (hn : ∀ i : Fin n, (fun k => Links.next (m k))^[i] k ≠ Links.null V) : n ≤ l.length := by
  induction h generalizing n with
  | nil => exact Nat.le_of_not_lt fun h0 => hn ⟨0, h0⟩ rfl
  | cons _ _ ih =>
      cases n with
      | zero => exact Nat.zero_le _
      | succ n => exact Nat.succ_le_succ (ih fun i => hn i.succ)

/-- The list does not depend on cells that are not free. -/
theorem Chain.congr {m' : K → V} (h : Chain m k l) (hm : ∀ a ∈ l, m' a = m a) : Chain m' k l := by
  induction h with
  | nil => exact .nil
  | @cons k l hk _ ih =>
      refine .cons hk ?_
      rw [hm k List.mem_cons_self]
      exact ih fun a ha => hm a (List.mem_cons_of_mem _ ha)

open Classical in
/-- The free cells of a heap. -/
noncomputable def Heap.frees (h : Heap K V) : List K :=
  if hc : ∃ l, Chain h.mem h.free l then hc.choose else []

theorem Heap.frees_eq {h : Heap K V} (hc : Chain h.mem h.free l) : h.frees = l := by
  have hex : ∃ l, Chain h.mem h.free l := ⟨l, hc⟩
  rw [Heap.frees, dif_pos hex]
  exact hex.choose_spec.unique hc

/-! ## Ownership -/

/-- The cells `A` are owned: they and the free cells are different cells of the
range `R`. -/
structure Owned (R : K → Prop) (h : Heap K V) (A : List K) : Prop where
  chain : Chain h.mem h.free h.frees
  nodup : (A ++ h.frees).Nodup
  range : ∀ a ∈ A ++ h.frees, R a

/-- A run from `h` to `h'` uses the cells `A` and leaves the cells `A'`. -/
structure Turns (h h' : Heap K V) (A A' : List K) : Prop where
  chain : Chain h'.mem h'.free h'.frees
  perm : (A' ++ h'.frees).Perm (A ++ h.frees)
  rest : ∀ a, a ∉ A → a ∉ h.frees → h'.mem a = h.mem a

variable {R : K → Prop} {h h' h'' : Heap K V} {A A' A'' B B' C : List K} {a : K}

theorem Owned.turns (ho : Owned R h A) (ht : Turns h h' A A') : Owned R h' A' where
  chain := ht.chain
  nodup := ht.perm.nodup_iff.mpr ho.nodup
  range := fun a ha => ho.range a (ht.perm.mem_iff.mp ha)

theorem Owned.of_perm (ho : Owned R h A) (hp : B.Perm A) : Owned R h B where
  chain := ho.chain
  nodup := (hp.append_right _).nodup_iff.mpr ho.nodup
  range := fun a ha => ho.range a ((hp.append_right _).mem_iff.mp ha)

/-- A part of the owned cells is owned. -/
theorem Owned.left (ho : Owned R h (A ++ C)) : Owned R h A where
  chain := ho.chain
  nodup := by
    have hn := ho.nodup
    rw [List.append_assoc, List.nodup_append] at hn
    obtain ⟨ha, hcf, hd⟩ := hn
    rw [List.nodup_append]
    refine ⟨ha, (List.nodup_append.mp hcf).2.1, ?_⟩
    exact fun x hx y hy => hd x hx y (List.mem_append_right _ hy)
  range := fun a ha => ho.range a (by
    rcases List.mem_append.mp ha with hA | hf
    · exact List.mem_append_left _ (List.mem_append_left _ hA)
    · exact List.mem_append_right _ hf)

theorem Owned.right (ho : Owned R h (A ++ C)) : Owned R h C :=
  (ho.of_perm List.perm_append_comm).left

theorem Owned.nodup_left (ho : Owned R h A) : A.Nodup := (List.nodup_append.mp ho.nodup).1

theorem Owned.not_free (ho : Owned R h A) (ha : a ∈ A) : a ∉ h.frees :=
  fun hf => (List.nodup_append.mp ho.nodup).2.2 a ha a hf rfl

theorem Owned.mem_range (ho : Owned R h A) (ha : a ∈ A) : R a :=
  ho.range a (List.mem_append_left _ ha)

/-- Cells owned side by side are different. -/
theorem Owned.ne (ho : Owned R h (A ++ C)) {c : K} (ha : a ∈ A) (hc : c ∈ C) : a ≠ c :=
  (List.nodup_append.mp ho.nodup_left).2.2 a ha c hc

/-! ## Runs -/

theorem Owned.refl (ho : Owned R h A) : Turns h h A A where
  chain := ho.chain
  perm := .refl _
  rest := fun _ _ _ => rfl

theorem Turns.trans (h₁ : Turns h h' A A') (h₂ : Turns h' h'' A' A'') : Turns h h'' A A'' where
  chain := h₂.chain
  perm := h₂.perm.trans h₁.perm
  rest := fun a ha hf => by
    have hn : a ∉ A' ++ h'.frees := fun hm => by
      rcases List.mem_append.mp (h₁.perm.mem_iff.mp hm) with hA | hF
      · exact ha hA
      · exact hf hF
    rw [h₂.rest a (fun hm => hn (List.mem_append_left _ hm))
      (fun hm => hn (List.mem_append_right _ hm)), h₁.rest a ha hf]

theorem Turns.of_perm (ht : Turns h h' A A') (hp : B.Perm A) (hp' : B'.Perm A') :
    Turns h h' B B' where
  chain := ht.chain
  perm := (hp'.append_right _).trans (ht.perm.trans (hp.symm.append_right _))
  rest := fun a ha hf => ht.rest a (fun hm => ha (hp.mem_iff.mpr hm)) hf

theorem Turns.length (ht : Turns h h' A A') :
    A'.length + h'.frees.length = A.length + h.frees.length := by
  simpa using ht.perm.length_eq

/-- A run keeps the cells that it does not use. -/
theorem Turns.frame (ht : Turns h h' A A') (C : List K) : Turns h h' (A ++ C) (A' ++ C) where
  chain := ht.chain
  perm := by
    have hp := ht.perm.append_right C
    rw [List.append_assoc, List.append_assoc] at hp ⊢
    exact ((List.perm_append_comm.append_left A').trans hp).trans
      (List.perm_append_comm.append_left A)
  rest := fun a ha hf => ht.rest a (fun hm => ha (List.mem_append_left _ hm)) hf

theorem Turns.frame_left (ht : Turns h h' A A') (C : List K) : Turns h h' (C ++ A) (C ++ A') :=
  (ht.frame C).of_perm List.perm_append_comm List.perm_append_comm

/-- The contents of a cell that the run does not use. -/
theorem Turns.mem_eq (ht : Turns h h' A A') (ho : Owned R h (A ++ C)) (ha : a ∈ C) :
    h'.mem a = h.mem a :=
  ht.rest a (fun hm => ho.ne hm ha rfl) (ho.right.not_free ha)

/-! ## Elementary runs -/

section

variable [DecidableEq K] {a : K}

/-- Take the first cell of the list. -/
theorem Owned.take (ho : Owned R h A) (hf : h.free ≠ Links.null V) (v : V) :
    Turns h ⟨Function.update h.mem h.free v, Links.next (h.mem h.free)⟩ [] [h.free] := by
  obtain ⟨l, hl, hc⟩ := ho.chain.eq_cons hf
  have hn : (h.free :: l).Nodup := hl ▸ (List.nodup_append.mp ho.nodup).2.1
  have hc' : Chain (Function.update h.mem h.free v) (Links.next (h.mem h.free)) l :=
    hc.congr fun a ha => update_of_mem (List.nodup_cons.mp hn).1 ha v
  have he := Heap.frees_eq (h := ⟨Function.update h.mem h.free v, Links.next (h.mem h.free)⟩) hc'
  refine ⟨by rw [he]; exact hc', by rw [he, hl]; exact .refl _, ?_⟩
  intro a _ ha
  rw [hl] at ha
  exact update_of_notMem List.mem_cons_self ha v

/-- Put a cell in front of the list. -/
theorem Owned.put (ho : Owned R h (a :: A)) (ha : a ≠ Links.null V) {v : V}
    (hv : Links.next v = h.free) : Turns h ⟨Function.update h.mem a v, a⟩ [a] [] := by
  have hna : a ∉ h.frees := ho.not_free List.mem_cons_self
  have hc : Chain (Function.update h.mem a v) a (a :: h.frees) := by
    refine .cons ha ?_
    rw [Function.update_self, hv]
    exact ho.chain.congr fun b hb => update_of_mem hna hb v
  have he := Heap.frees_eq (h := ⟨Function.update h.mem a v, a⟩) hc
  refine ⟨by rw [he]; exact hc, by rw [he]; exact .refl _, ?_⟩
  intro b hb _
  exact update_of_notMem List.mem_cons_self hb v

/-- Write an owned cell. -/
theorem Owned.write (ho : Owned R h A) (ha : a ∈ A) (v : V) : Turns h (h.set a v) A A := by
  have hc : Chain (Function.update h.mem a v) h.free h.frees :=
    ho.chain.congr fun b hb => update_of_mem (ho.not_free ha) hb v
  have he := Heap.frees_eq (h := h.set a v) hc
  refine ⟨by rw [he]; exact hc, by rw [he], ?_⟩
  intro b hb _
  exact update_of_notMem ha hb v

end

/-! ## A family of lists -/

section

variable {ι : Type} [DecidableEq ι] {l : List ι} {f g : ι → List K} {i : ι}

/-- One member of a family and the others. -/
theorem flatMap_perm_erase (hi : i ∈ l) : (l.flatMap f).Perm (f i ++ (l.erase i).flatMap f) := by
  have hp := (List.perm_cons_erase hi).flatMap_right f
  rwa [List.flatMap_cons] at hp

theorem flatMap_erase_congr (hl : l.Nodup) (h : ∀ j ∈ l, j ≠ i → f j = g j) :
    (l.erase i).flatMap f = (l.erase i).flatMap g := by
  apply List.flatMap_congr
  intro j hj
  obtain ⟨hne, hmem⟩ := hl.mem_erase_iff.mp hj
  exact h j hmem hne

end

end FreeList
