import Xv6.Vm.PageTable

/-!
# The tree of page-table pages

A page-table page at level `L + 1` has 512 entries, each `0` or the address of a
page at level `L`.  `tbl` lists the pages of a tree and `look` is the entry that
the tree holds for an address.  Three changes are made to a tree: an entry of the
lowest level is written (`look_set`), an empty page is hung in or a subtree
changes (`graft_tbl`, `graft_look`).
-/

namespace Xv6.Vm

open FreeList

/-! ## Flags of an entry -/

theorem and_two_pow_ne_zero {e k : Nat} : e &&& 2 ^ k ≠ 0 ↔ e.testBit k = true := by
  rw [Nat.and_two_pow]
  cases e.testBit k <;> simp

abbrev Valid (e : Nat) : Prop := e &&& PTE_V ≠ 0

/-- An entry that refers to a page of the next level. -/
structure Interior (e : Nat) : Prop where
  valid : Valid e
  noLeaf : e &&& (PTE_R ||| PTE_W ||| PTE_X) = 0

/-- An entry that maps a page.  All mappings of the kernel are readable. -/
structure Leaf (e : Nat) : Prop where
  valid : Valid e
  readable : e &&& PTE_R ≠ 0

theorem valid_iff {e : Nat} : Valid e ↔ e.testBit 0 = true := and_two_pow_ne_zero (k := 0)

theorem not_valid_zero : ¬ Valid 0 := by decide

theorem Leaf.flags_ne {e : Nat} (h : Leaf e) : PTE_FLAGS e ≠ PTE_V := by
  intro he
  have hr : e.testBit 1 = true := and_two_pow_ne_zero.mp h.readable
  have ht : (PTE_FLAGS e).testBit 1 = true := by
    rw [PTE_FLAGS, Nat.testBit_and, hr]
    decide
  rw [he] at ht
  exact absurd ht (by decide)

/-- The flags of an entry made from an address and flags. -/
theorem testBit_pte (pa f : Nat) {k : Nat} (hk : k < 10) :
    (PA2PTE pa ||| f).testBit k = f.testBit k := by
  rw [Nat.testBit_or, PA2PTE, Nat.testBit_shiftLeft]
  simp [hk]

theorem PTE2PA_pte {pa f : Nat} (hp : pa % PGSIZE = 0) (hf : f < 1024) :
    PTE2PA (PA2PTE pa ||| f) = pa := by
  have h0 : f / 2 ^ 10 = 0 := by omega
  rw [PTE2PA, PA2PTE, Nat.shiftRight_or_distrib]
  simp only [Nat.shiftLeft_eq, Nat.shiftRight_eq_div_pow, h0, Nat.or_zero]
  rw [PGSIZE] at hp
  omega

theorem PTE_FLAGS_pte {pa f : Nat} (hf : f < 1024) : PTE_FLAGS (PA2PTE pa ||| f) = f := by
  have h0 : PA2PTE pa % 2 ^ 10 = 0 := by
    rw [PA2PTE, Nat.shiftLeft_eq]
    exact Nat.mul_mod_left _ _
  have hm : PTE_FLAGS (PA2PTE pa ||| f) = (PA2PTE pa ||| f) % 2 ^ 10 :=
    Nat.and_two_pow_sub_one_eq_mod _ 10
  rw [hm, Nat.or_mod_two_pow, h0, Nat.zero_or, Nat.mod_eq_of_lt hf]

theorem pte_lt {pa f : Nat} (hp : pa < 2 ^ 64) (hf : f < 1024) : PA2PTE pa ||| f < 2 ^ 64 := by
  apply Nat.or_lt_two_pow
  · rw [PA2PTE, Nat.shiftLeft_eq, Nat.shiftRight_eq_div_pow]
    omega
  · omega

theorem interior_pte (pa : Nat) : Interior (PA2PTE pa ||| PTE_V) where
  valid := by
    rw [valid_iff, testBit_pte pa PTE_V (by omega)]
    decide
  noLeaf := by
    apply Nat.eq_of_testBit_eq
    intro k
    rw [Nat.testBit_and, Nat.zero_testBit]
    rcases Nat.lt_or_ge k 4 with hk | hk
    · have hlow : ∀ k < 4, (PTE_V.testBit k && (PTE_R ||| PTE_W ||| PTE_X).testBit k) = false := by
        decide
      rw [testBit_pte pa PTE_V (by omega)]
      exact hlow k hk
    · have hr : (PTE_R ||| PTE_W ||| PTE_X).testBit k = false :=
        Nat.testBit_lt_two_pow (Nat.lt_of_lt_of_le (by decide) (Nat.pow_le_pow_right (by omega) hk))
      rw [hr, Bool.and_false]

/-! ## Entries in memory -/

/-- Memory after a store to an entry. -/
def setPte (m : Nat → Page) (pt i e : Nat) : Nat → Page :=
  Function.update m pt ((m pt).setLe (8 * i) 8 e)

variable {m m' : Nat → Page} {pt p q i j e L va va' : Nat}

theorem pteOf_setPte_self (hi : i < 512) (he : e < 2 ^ 64) : pteOf (setPte m pt i e) pt i = e := by
  have hn : 8 * i + 8 ≤ PGSIZE := by rw [PGSIZE]; omega
  rw [pteOf, setPte, Function.update_self, Bytes.Region.getLe_setLe _ _ hn]
  exact Nat.mod_eq_of_lt he

theorem pteOf_setPte_of_ne (h : q ≠ pt ∨ j ≠ i) : pteOf (setPte m pt i e) q j = pteOf m q j := by
  by_cases hq : q = pt
  · subst hq
    have hj : j ≠ i := h.resolve_left (fun hn => hn rfl)
    rw [pteOf, setPte, Function.update_self, pteOf]
    exact Bytes.Region.getLe_setLe_of_disjoint _ _ (by omega)
  · rw [pteOf, setPte, Function.update_of_ne hq, pteOf]

theorem pteOf_congr (h : m' p = m p) : pteOf m' p i = pteOf m p i := by
  rw [pteOf, h, pteOf]

theorem pteOf_fill_zero (h : m p = Page.fill 0) : pteOf m p i = 0 := by
  have hz : (Page.fill 0).read (8 * i) 8 = [0, 0, 0, 0, 0, 0, 0, 0] := by
    apply List.ext_getElem
    · simp
    · intro k hk hk'
      have hget : (Page.fill 0).get (8 * i + k) = 0 := by
        unfold Bytes.Region.get
        split <;> rfl
      have hlist : ∀ k (h : k < [0, 0, 0, 0, 0, 0, 0, 0].length),
          ([0, 0, 0, 0, 0, 0, 0, 0] : List UInt8)[k] = 0 := by decide
      rw [hlist k hk']
      simpa [Bytes.Region.read] using hget
  rw [pteOf, h, Bytes.Region.getLe, hz]
  rfl

theorem PX_lt : PX L va < 512 := Nat.and_lt_two_pow _ (n := 9) (by decide)

/-! ## The pages and entries of a tree -/

/-- The pages of a tree. -/
def tbl (m : Nat → Page) : Nat → Nat → List Nat
  | 0, p => [p]
  | L + 1, p => p :: (List.range 512).flatMap fun i =>
      if Valid (pteOf m p i) then tbl m L (PTE2PA (pteOf m p i)) else []

/-- The pages below one entry. -/
def kid (m : Nat → Page) (L p i : Nat) : List Nat :=
  if Valid (pteOf m p i) then tbl m L (PTE2PA (pteOf m p i)) else []

/-- The pages of a tree other than those below one entry. -/
def siblings (m : Nat → Page) (L p i : Nat) : List Nat :=
  p :: ((List.range 512).erase i).flatMap (kid m L p)

/-- Every entry above the lowest level is `0` or refers to a tree. -/
def Tree (m : Nat → Page) : Nat → Nat → Prop
  | 0, _ => True
  | L + 1, p => ∀ i < 512, pteOf m p i = 0 ∨
      Interior (pteOf m p i) ∧ Tree m L (PTE2PA (pteOf m p i))

/-- Where the entry for an address is. -/
def slot (m : Nat → Page) (va : Nat) : Nat → Nat → Option (Nat × Nat)
  | 0, p => some (p, PX 0 va)
  | L + 1, p =>
      if Valid (pteOf m p (PX (L + 1) va)) then slot m va L (PTE2PA (pteOf m p (PX (L + 1) va)))
      else none

/-- The entry for an address, `0` if there is no page for it. -/
def look (m : Nat → Page) (L p va : Nat) : Nat :=
  (slot m va L p).elim 0 fun x => pteOf m x.1 x.2

/-- Two addresses with the same entry. -/
def SamePath (L va va' : Nat) : Prop := ∀ l ≤ L, PX l va = PX l va'

theorem tbl_zero : tbl m 0 p = [p] := rfl

theorem tbl_succ : tbl m (L + 1) p = p :: (List.range 512).flatMap (kid m L p) := rfl

theorem tbl_succ_congr (h : ∀ i < 512, kid m' L p i = kid m L p i) :
    tbl m' (L + 1) p = tbl m (L + 1) p := by
  rw [tbl_succ, tbl_succ, List.flatMap_congr fun i hi => h i (List.mem_range.mp hi)]

theorem kid_of_valid (h : Valid (pteOf m p i)) :
    kid m L p i = tbl m L (PTE2PA (pteOf m p i)) := if_pos h

theorem kid_of_not_valid (h : ¬ Valid (pteOf m p i)) : kid m L p i = [] := if_neg h

theorem mem_tbl_self : p ∈ tbl m L p := by
  cases L <;> exact List.mem_cons_self

theorem kid_subset (hi : i < 512) (hq : q ∈ kid m L p i) : q ∈ tbl m (L + 1) p :=
  List.mem_cons_of_mem _ (List.mem_flatMap.mpr ⟨i, List.mem_range.mpr hi, hq⟩)

theorem tbl_perm (hi : i < 512) : (tbl m (L + 1) p).Perm (kid m L p i ++ siblings m L p i) := by
  rw [tbl_succ, siblings]
  refine .trans ?_ List.perm_middle.symm
  exact (flatMap_perm_erase (List.mem_range.mpr hi)).cons p

theorem slot_succ : slot m va (L + 1) p =
    if Valid (pteOf m p (PX (L + 1) va)) then slot m va L (PTE2PA (pteOf m p (PX (L + 1) va)))
    else none := rfl

theorem look_zero : look m 0 p va = pteOf m p (PX 0 va) := rfl

theorem look_of_valid (h : Valid (pteOf m p (PX (L + 1) va))) :
    look m (L + 1) p va = look m L (PTE2PA (pteOf m p (PX (L + 1) va))) va := by
  rw [look, slot_succ, if_pos h, look]

theorem look_of_not_valid (h : ¬ Valid (pteOf m p (PX (L + 1) va))) : look m (L + 1) p va = 0 := by
  rw [look, slot_succ, if_neg h]
  rfl

theorem look_of_slot (h : slot m va L p = some (q, i)) : look m L p va = pteOf m q i := by
  rw [look, h]
  rfl

theorem look_of_slot_none (h : slot m va L p = none) : look m L p va = 0 := by
  rw [look, h]
  rfl

theorem slot_mem (h : slot m va L p = some (q, i)) : q ∈ tbl m L p ∧ i = PX 0 va := by
  induction L generalizing p with
  | zero =>
      cases h
      exact ⟨mem_tbl_self, rfl⟩
  | succ L ih =>
      by_cases hv : Valid (pteOf m p (PX (L + 1) va))
      · rw [slot_succ, if_pos hv] at h
        obtain ⟨hq, hi⟩ := ih h
        exact ⟨kid_subset PX_lt (by rwa [kid_of_valid hv]), hi⟩
      · rw [slot_succ, if_neg hv] at h
        cases h

/-! ## Memory that does not meet the tree -/

theorem agree_kid (h : ∀ q ∈ tbl m (L + 1) p, m' q = m q) (hi : i < 512)
    (hv : Valid (pteOf m p i)) : ∀ q ∈ tbl m L (PTE2PA (pteOf m p i)), m' q = m q :=
  fun q hq => h q (kid_subset hi (by rwa [kid_of_valid hv]))

theorem tbl_congr (h : ∀ q ∈ tbl m L p, m' q = m q) : tbl m' L p = tbl m L p := by
  induction L generalizing p with
  | zero => rfl
  | succ L ih =>
      have he : ∀ i, pteOf m' p i = pteOf m p i := fun i => pteOf_congr (h p mem_tbl_self)
      apply tbl_succ_congr
      intro i hi
      by_cases hv : Valid (pteOf m p i)
      · rw [kid_of_valid hv, kid_of_valid (by rwa [he]), he]
        exact ih (agree_kid h hi hv)
      · rw [kid_of_not_valid hv, kid_of_not_valid (by rwa [he])]

theorem slot_congr (h : ∀ q ∈ tbl m L p, m' q = m q) : slot m' va L p = slot m va L p := by
  induction L generalizing p with
  | zero => rfl
  | succ L ih =>
      have he : ∀ i, pteOf m' p i = pteOf m p i := fun i => pteOf_congr (h p mem_tbl_self)
      rw [slot_succ, slot_succ, he]
      split
      · next hv => exact ih (agree_kid h PX_lt hv)
      · rfl

theorem look_congr (h : ∀ q ∈ tbl m L p, m' q = m q) : look m' L p va = look m L p va := by
  cases hs : slot m va L p with
  | none => rw [look_of_slot_none hs, look_of_slot_none (by rw [slot_congr h, hs])]
  | some x =>
      obtain ⟨q, i⟩ := x
      rw [look_of_slot hs, look_of_slot (by rw [slot_congr h, hs])]
      exact pteOf_congr (h q (slot_mem hs).1)

theorem Tree.congr (ht : Tree m L p) (h : ∀ q ∈ tbl m L p, m' q = m q) : Tree m' L p := by
  induction L generalizing p with
  | zero => trivial
  | succ L ih =>
      intro i hi
      rw [pteOf_congr (h p mem_tbl_self)]
      rcases ht i hi with h0 | ⟨hint, htree⟩
      · exact .inl h0
      · exact .inr ⟨hint, ih htree (agree_kid h hi hint.valid)⟩

theorem kid_congr (he : pteOf m' p j = pteOf m p j) (h : ∀ q ∈ kid m L p j, m' q = m q) :
    kid m' L p j = kid m L p j := by
  by_cases hv : Valid (pteOf m p j)
  · rw [kid_of_valid hv, kid_of_valid (by rwa [he]), he]
    exact tbl_congr fun q hq => h q (by rwa [kid_of_valid hv])
  · rw [kid_of_not_valid hv, kid_of_not_valid (by rwa [he])]

/-! ## One entry of a page changes, or the pages below it -/

theorem mem_siblings_self : p ∈ siblings m L p i := List.mem_cons_self

theorem mem_siblings (hj : j < 512) (hne : j ≠ i) (hq : q ∈ kid m L p j) : q ∈ siblings m L p i := by
  refine List.mem_cons_of_mem _ (List.mem_flatMap.mpr ⟨j, ?_, hq⟩)
  exact List.nodup_range.mem_erase_iff.mpr ⟨hne, List.mem_range.mpr hj⟩

/-- The entries of `p` other than `i` and the pages below them are the same in
both memories. -/
structure Graft (m m' : Nat → Page) (L p i : Nat) : Prop where
  entry : ∀ j < 512, j ≠ i → pteOf m' p j = pteOf m p j
  below : ∀ j < 512, j ≠ i → ∀ q ∈ kid m L p j, m' q = m q

theorem Graft.of_siblings (h : ∀ q ∈ siblings m L p i, m' q = m q) : Graft m m' L p i where
  entry _ _ _ := pteOf_congr (h p mem_siblings_self)
  below _ hj hne q hq := h q (mem_siblings hj hne hq)

variable (hg : Graft m m' L p i)
include hg

theorem Graft.kid_eq (hj : j < 512) (hne : j ≠ i) : kid m' L p j = kid m L p j :=
  kid_congr (hg.entry j hj hne) (hg.below j hj hne)

theorem Graft.siblings_eq : siblings m' L p i = siblings m L p i := by
  rw [siblings, siblings,
    flatMap_erase_congr List.nodup_range fun j hj hne => hg.kid_eq (List.mem_range.mp hj) hne]

theorem Graft.tbl_perm (hi : i < 512) :
    (tbl m' (L + 1) p).Perm (kid m' L p i ++ siblings m L p i) := by
  rw [← hg.siblings_eq]
  exact Vm.tbl_perm hi

theorem Graft.slot_eq (hne : PX (L + 1) va ≠ i) : slot m' va (L + 1) p = slot m va (L + 1) p := by
  rw [slot_succ, slot_succ, hg.entry _ PX_lt hne]
  split
  · next hv => exact slot_congr fun q hq => hg.below _ PX_lt hne q (by rwa [kid_of_valid hv])
  · rfl

theorem Graft.look_eq (hne : PX (L + 1) va ≠ i) : look m' (L + 1) p va = look m (L + 1) p va := by
  have he := hg.entry _ PX_lt hne
  by_cases hv : Valid (pteOf m p (PX (L + 1) va))
  · rw [look_of_valid hv, look_of_valid (by rwa [he]), he]
    exact look_congr fun q hq => hg.below _ PX_lt hne q (by rwa [kid_of_valid hv])
  · rw [look_of_not_valid hv, look_of_not_valid (by rwa [he])]

theorem Graft.tree (ht : Tree m (L + 1) p)
    (hi : Interior (pteOf m' p i) ∧ Tree m' L (PTE2PA (pteOf m' p i))) : Tree m' (L + 1) p := by
  intro j hj
  by_cases hne : j = i
  · rw [hne]
    exact .inr hi
  · rw [hg.entry j hj hne]
    rcases ht j hj with h0 | ⟨hint, htree⟩
    · exact .inl h0
    · exact .inr ⟨hint, htree.congr fun q hq =>
        hg.below j hj hne q (by rwa [kid_of_valid hint.valid])⟩

omit hg

/-! ## A store to an entry of the lowest level -/

theorem setPte_of_ne (h : q ≠ pt) : setPte m pt i e q = m q := Function.update_of_ne h _ m

/-- The pages below one entry do not meet the rest of the tree. -/
theorem siblings_ne (hn : (tbl m (L + 1) p).Nodup) (hi : i < 512) (hq : q ∈ kid m L p i) :
    ∀ r ∈ siblings m L p i, r ≠ q := by
  have hp := (tbl_perm hi).nodup_iff.mp hn
  exact fun r hr he => (List.nodup_append.mp hp).2.2 q hq r hr he.symm

theorem kid_nodup (hn : (tbl m (L + 1) p).Nodup) (hi : i < 512) : (kid m L p i).Nodup :=
  (List.nodup_append.mp ((tbl_perm hi).nodup_iff.mp hn)).1

theorem Graft.setPte (hn : (tbl m (L + 1) p).Nodup) (hi : i < 512) (hq : q ∈ kid m L p i) :
    Graft m (setPte m q j e) L p i :=
  .of_siblings fun r hr => setPte_of_ne (siblings_ne hn hi hq r hr)

theorem setPte_tree (hn : (tbl m L p).Nodup) (hs : slot m va L p = some (q, i)) :
    tbl (setPte m q i e) L p = tbl m L p ∧ (Tree m L p → Tree (setPte m q i e) L p) ∧
      ∀ va', slot (setPte m q i e) va' L p = slot m va' L p := by
  induction L generalizing p with
  | zero => exact ⟨rfl, id, fun _ => rfl⟩
  | succ L ih =>
      by_cases hv : Valid (pteOf m p (PX (L + 1) va))
      · rw [slot_succ, if_pos hv] at hs
        have hk := kid_of_valid (L := L) hv
        have hq : q ∈ kid m L p (PX (L + 1) va) := by
          rw [hk]
          exact (slot_mem hs).1
        have hg : Graft m (Vm.setPte m q i e) L p (PX (L + 1) va) := .setPte hn PX_lt hq
        have he : pteOf (Vm.setPte m q i e) p (PX (L + 1) va) = pteOf m p (PX (L + 1) va) :=
          pteOf_congr (setPte_of_ne (siblings_ne hn PX_lt hq p mem_siblings_self))
        obtain ⟨htbl, htree, hslot⟩ := ih (hk ▸ kid_nodup hn PX_lt) hs
        refine ⟨?_, fun ht => hg.tree ht ?_, fun va' => ?_⟩
        · apply tbl_succ_congr
          intro j hj
          by_cases hne : j = PX (L + 1) va
          · rw [hne, hk, kid_of_valid (by rwa [he]), he, htbl]
          · exact hg.kid_eq hj hne
        · rw [he]
          rcases ht _ PX_lt with h0 | ⟨hint, htr⟩
          · exact absurd (h0 ▸ hv) not_valid_zero
          · exact ⟨hint, htree htr⟩
        · by_cases hne : PX (L + 1) va' = PX (L + 1) va
          · rw [slot_succ, slot_succ, hne, he, if_pos hv, if_pos hv, hslot]
          · exact hg.slot_eq hne
      · rw [slot_succ, if_neg hv] at hs
        cases hs

theorem SamePath.pred (h : SamePath (L + 1) va va') : SamePath L va va' :=
  fun l hl => h l (Nat.le_succ_of_le hl)

theorem slot_samePath (h : SamePath L va va') : slot m va' L p = slot m va L p := by
  induction L generalizing p with
  | zero => rw [slot, slot, h 0 (Nat.le_refl 0)]
  | succ L ih => rw [slot_succ, slot_succ, h (L + 1) (Nat.le_refl _), ih h.pred]

theorem look_samePath (h : SamePath L va va') : look m L p va' = look m L p va := by
  rw [look, look, slot_samePath h]

/-- Different addresses have different entries. -/
theorem slot_inj (hn : (tbl m L p).Nodup) (h : slot m va L p = some (q, i))
    (h' : slot m va' L p = some (q, i)) : SamePath L va va' := by
  induction L generalizing p with
  | zero =>
      intro l hl
      cases Nat.le_zero.mp hl
      exact (slot_mem h).2.symm.trans (slot_mem h').2
  | succ L ih =>
      by_cases hv : Valid (pteOf m p (PX (L + 1) va))
      · by_cases hv' : Valid (pteOf m p (PX (L + 1) va'))
        · rw [slot_succ, if_pos hv] at h
          rw [slot_succ, if_pos hv'] at h'
          have hq : q ∈ kid m L p (PX (L + 1) va) := by
            rw [kid_of_valid hv]
            exact (slot_mem h).1
          have hq' : q ∈ kid m L p (PX (L + 1) va') := by
            rw [kid_of_valid hv']
            exact (slot_mem h').1
          have he : PX (L + 1) va' = PX (L + 1) va := by
            by_contra hne
            exact siblings_ne hn PX_lt hq q (mem_siblings PX_lt hne hq') rfl
          rw [he] at h'
          have hsame := ih (kid_of_valid (L := L) hv ▸ kid_nodup hn PX_lt) h h'
          intro l hl
          rcases Nat.lt_or_eq_of_le hl with hlt | rfl
          · exact hsame l (Nat.le_of_lt_succ hlt)
          · exact he.symm
        · rw [slot_succ, if_neg hv'] at h'
          cases h'
      · rw [slot_succ, if_neg hv] at h
        cases h

/-- The entry that is written. -/
theorem look_setPte_self (hn : (tbl m L p).Nodup) (hs : slot m va L p = some (q, i))
    (he : e < 2 ^ 64) (h : SamePath L va va') : look (setPte m q i e) L p va' = e := by
  have hi : i < 512 := by
    rw [(slot_mem hs).2]
    exact PX_lt
  have hs' : slot (setPte m q i e) va' L p = some (q, i) := by
    rw [(setPte_tree hn hs).2.2, slot_samePath h, hs]
  rw [look_of_slot hs', pteOf_setPte_self hi he]

/-- The other entries. -/
theorem look_setPte_of_ne (hn : (tbl m L p).Nodup) (hs : slot m va L p = some (q, i))
    (h : ¬ SamePath L va va') : look (setPte m q i e) L p va' = look m L p va' := by
  have hs' := (setPte_tree (e := e) hn hs).2.2 va'
  cases hx : slot m va' L p with
  | none => rw [look_of_slot_none hx, look_of_slot_none (by rw [hs', hx])]
  | some x =>
      obtain ⟨r, j⟩ := x
      rw [look_of_slot hx, look_of_slot (by rw [hs', hx])]
      apply pteOf_setPte_of_ne
      by_contra hc
      push Not at hc
      obtain ⟨rfl, rfl⟩ := hc
      exact h (slot_inj hn hs hx)

/-! ## An empty page -/

theorem tbl_blank (h : m p = Page.fill 0) : tbl m L p = [p] := by
  cases L with
  | zero => rfl
  | succ L =>
      have hk : ∀ i ∈ List.range 512, kid m L p i = [] := fun i _ =>
        kid_of_not_valid (by rw [pteOf_fill_zero h]; exact not_valid_zero)
      rw [tbl_succ, List.flatMap_eq_nil_iff.mpr hk]

theorem tree_blank (h : m p = Page.fill 0) : Tree m L p := by
  cases L with
  | zero => trivial
  | succ L => exact fun i _ => .inl (pteOf_fill_zero h)

theorem look_blank (h : m p = Page.fill 0) : look m L p va = 0 := by
  cases L with
  | zero => rw [look_zero, pteOf_fill_zero h]
  | succ L => exact look_of_not_valid (by rw [pteOf_fill_zero h]; exact not_valid_zero)

/-! ## Addresses -/

theorem PX_eq (l va : Nat) : PX l va = va / 2 ^ (12 + 9 * l) % 512 := by
  rw [PX, Nat.shiftRight_eq_div_pow]
  exact Nat.and_two_pow_sub_one_eq_mod _ 9

/-- Two addresses have the same entry if they are in the same page. -/
theorem samePath_iff (h : va < 2 ^ 39) (h' : va' < 2 ^ 39) :
    SamePath 2 va va' ↔ va / PGSIZE = va' / PGSIZE := by
  rw [PGSIZE]
  constructor
  · intro hs
    have h0 := hs 0 (by omega)
    have h1 := hs 1 (by omega)
    have h2 := hs 2 (by omega)
    simp only [PX_eq, Nat.reduceMul, Nat.reduceAdd, Nat.reducePow] at h0 h1 h2
    omega
  · intro he l hl
    have hd : ∀ a, a / 2 ^ (12 + 9 * l) = a / 4096 / 2 ^ (9 * l) := fun a => by
      rw [Nat.div_div_eq_div_mul, Nat.pow_add]
    rw [PX_eq, PX_eq, hd, hd, he]

theorem PX_add_mul {l k : Nat} (hl : l < k) (va j : Nat) :
    PX l (va % 2 ^ (12 + 9 * k) + j * 2 ^ (12 + 9 * k)) = PX l va := by
  obtain ⟨d, rfl⟩ := Nat.exists_eq_add_of_lt hl
  have hB : 2 ^ (12 + 9 * (l + d + 1)) = 2 ^ (12 + 9 * l) * 512 * 2 ^ (9 * d) := by
    rw [show (512 : Nat) = 2 ^ 9 from rfl, ← Nat.pow_add, ← Nat.pow_add]
    congr 1
    omega
  have hd : 2 ^ (12 + 9 * l) * 512 ∣ 2 ^ (12 + 9 * (l + d + 1)) := ⟨_, hB⟩
  rw [PX_eq, PX_eq, ← Nat.mod_mul_right_div_self, ← Nat.mod_mul_right_div_self, Nat.add_mod,
    Nat.mod_mod_of_dvd _ hd, Nat.mod_eq_zero_of_dvd (Dvd.dvd.mul_left hd j), Nat.add_zero,
    Nat.mod_mod]

/-- Every index is met by some address with given lower indices. -/
theorem exists_path (va : Nat) (hj : j < 512) : ∃ va', PX (L + 1) va' = j ∧ SamePath L va va' := by
  refine ⟨va % 2 ^ (12 + 9 * (L + 1)) + j * 2 ^ (12 + 9 * (L + 1)), ?_, fun l hl => ?_⟩
  · have hpos : 0 < 2 ^ (12 + 9 * (L + 1)) := Nat.two_pow_pos _
    rw [PX_eq, Nat.add_mul_div_right _ _ hpos, Nat.div_eq_of_lt (Nat.mod_lt _ hpos), Nat.zero_add,
      Nat.mod_eq_of_lt hj]
  · exact (PX_add_mul (Nat.lt_succ_of_le hl) va j).symm

/-- A subtree of a tree without mappings has none. -/
theorem look_kid_zero (hz : ∀ va, look m (L + 1) p va = 0) (hj : j < 512)
    (hv : Valid (pteOf m p j)) (va : Nat) : look m L (PTE2PA (pteOf m p j)) va = 0 := by
  obtain ⟨va', rfl, hsame⟩ := exists_path (L := L) va hj
  have h := hz va'
  rwa [look_of_valid hv, look_samePath hsame] at h

theorem pteOf_zero_of_look (hz : ∀ va, look m 0 p va = 0) (hj : j < 512) : pteOf m p j = 0 := by
  have h := hz (j * PGSIZE)
  have hx : PX 0 (j * PGSIZE) = j := by
    rw [PX_eq, PGSIZE]
    omega
  rw [look_zero, hx] at h
  exact h

-- A list of up to 512 subtrees is never to be computed by the unifier.
attribute [irreducible] tbl

end Xv6.Vm
