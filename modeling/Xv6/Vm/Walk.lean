import Xv6.Vm.Table

/-!
# What the page-table functions do

A specification of every function that allocates, walks, maps, unmaps and frees.
Each says which pages the function turns into which (`Turns`), and what it does to
the entries of the tree.  None of them reaches a panic: the condition on the
error is arbitrary in every specification.
-/

namespace Xv6.Vm

open Hoare FreeList

variable {g : Layout} {s s' s₁ : Machine} {A : List Nat} {E : Panic → Prop} {a r pt : Nat}
  {Q : Unit → Machine → Prop}

/-! ## The allocator -/

theorem Layout.IsPage.ne_zero (h : g.IsPage a) : a ≠ 0 := by
  have hk := g.kernbase_le
  have h0 : 0 < KERNBASE := by decide
  have := h.2.1
  omega

theorem lt_of_lt_phystop (h : a < PHYSTOP) : a < 2 ^ 64 := h.trans (by decide)

/-- `kalloc` takes a page, or fails if none is free. -/
theorem kalloc_spec (ho : Owned g.IsPage s A) :
    wp kalloc (fun r s' => r = 0 ∧ s' = s ∧ s.frees.length = 0 ∨ r ≠ 0 ∧ Turns s s' [] [r]) E s := by
  simp only [kalloc, wp_bind, wp_get]
  by_cases h0 : s.free = 0
  · rw [if_pos h0]
    have hc := ho.chain
    rw [h0] at hc
    have hn : s.frees = [] := hc.eq_nil
    exact .inl ⟨rfl, rfl, by rw [hn]; rfl⟩
  · rw [if_neg h0]
    exact .inr ⟨h0, ho.take h0 _⟩

/-- From `s` to `s'` at most `d` pages are taken, and there is a failure only if fewer were free. -/
structure Takes (d : Nat) (fails : Prop) (s s' : Machine) : Prop where
  free : fails → s.frees.length < d
  length : s.frees.length ≤ s'.frees.length + d

/-- What was taken is given back. -/
theorem Takes.of_turns {d : Nat} {fails : Prop} (ht : Turns s s' [] []) (h : s.frees.length < d) :
    Takes d fails s s' := by
  have := ht.length
  exact ⟨fun _ => h, by omega⟩

/-- The head of the list fits in a word. -/
theorem free_lt (ho : Owned g.IsPage s A) : s.free < 2 ^ 64 := by
  by_cases h0 : s.free = 0
  · omega
  · obtain ⟨l, hl, _⟩ := ho.chain.eq_cons h0
    have hp := ho.range s.free (List.mem_append_right _ (by rw [hl]; exact List.mem_cons_self))
    exact lt_of_lt_phystop hp.2.2

theorem kfree_spec (ho : Owned g.IsPage s (a :: A)) :
    wp (kfree g a) (fun _ s' => Turns s s' [a] []) E s := by
  have hp : g.IsPage a := ho.mem_range List.mem_cons_self
  have hc : ¬ (a % PGSIZE ≠ 0 ∨ a < g.ends ∨ PHYSTOP ≤ a) := by
    obtain ⟨h1, h2, h3⟩ := hp
    omega
  rw [kfree, if_neg hc]
  refine ho.put hp.ne_zero ?_
  have hw : ((Page.fill 1).setLe 0 8 s.free).getLe 0 8 = s.free % 256 ^ 8 :=
    Bytes.Region.getLe_setLe _ _ (by decide)
  exact hw.trans (Nat.mod_eq_of_lt (free_lt ho))

/-- A new page with given contents. -/
theorem fresh_page (ho : Owned g.IsPage s A) (h₁ : Turns s s₁ [] [r]) (pg : Page) :
    Turns s (s₁.set r pg) A (r :: A) ∧ ∀ q ∈ A, q ≠ r ∧ (s₁.set r pg).mem q = s.mem q := by
  have hf : Turns s s₁ A (r :: A) := h₁.frame A
  have ho₁ := ho.turns hf
  have hr : r ∉ A := (List.nodup_cons.mp ho₁.nodup_left).1
  refine ⟨hf.trans (ho₁.write List.mem_cons_self pg), fun q hq => ?_⟩
  have hne : q ≠ r := fun he => hr (he ▸ hq)
  exact ⟨hne, (Function.update_of_ne hne _ _).trans (h₁.mem_eq (C := A) ho hq)⟩

/-! ## Loads and stores -/

@[simp] theorem wp_setPage {pa : Nat} {pg : Page} :
    wp (setPage pa pg) Q E s ↔ Q () (s.set pa pg) := Iff.rfl

@[simp] theorem wp_memset {pa : Nat} {b : UInt8} :
    wp (memset pa b) Q E s ↔ Q () (s.set pa (Page.fill b)) := Iff.rfl

@[simp] theorem wp_storeBytes {pa off : Nat} {bs : List UInt8} :
    wp (storeBytes pa off bs) Q E s ↔ Q () (s.set pa ((s.mem pa).write off bs)) := Iff.rfl

@[simp] theorem wp_readPte {Q : Nat → Machine → Prop} {i : Nat} :
    wp (readPte pt i) Q E s ↔ Q (pteOf s.mem pt i) s := Iff.rfl

@[simp] theorem wp_writePte {i e : Nat} :
    wp (writePte pt i e) Q E s ↔ Q () (s.set pt ((s.mem pt).setLe (8 * i) 8 e)) := Iff.rfl

/-- Memory after a store to an entry. -/
theorem mem_set_pte {i e : Nat} :
    (s.set pt ((s.mem pt).setLe (8 * i) 8 e)).mem = setPte s.mem pt i e := rfl

/-! ## `walk` -/

variable {p va L : Nat} {s₂ : Machine}

theorem wp_walkFrom {Q : Option (Nat × Nat) → Machine → Prop} :
    wp (walkFrom va false L p) Q E s ↔ Q (slot s.mem va L p) s := by
  induction L generalizing p with
  | zero => exact Iff.rfl
  | succ L ih =>
      simp only [walkFrom, wp_bind, wp_readPte]
      rw [slot_succ]
      split
      · exact ih
      · exact Iff.rfl

/-- Without `alloc`, `walk` reads the tree. -/
theorem wp_walk {Q : Option (Nat × Nat) → Machine → Prop} (h : va < MAXVA) :
    wp (walk p va false) Q E s ↔ Q (slot s.mem va 2 p) s := by
  rw [walk, if_neg (Nat.not_le.mpr h), wp_walkFrom]

/-- A tree has got more pages, and its entries are the same. -/
structure Grows (s s' : Machine) (L p : Nat) : Prop where
  turns : Turns s s' (tbl s.mem L p) (tbl s'.mem L p)
  tree : Tree s'.mem L p
  look : ∀ va, look s'.mem L p va = look s.mem L p va

theorem Grows.refl (ho : Owned g.IsPage s (tbl s.mem L p)) (ht : Tree s.mem L p) :
    Grows s s L p := ⟨ho.refl, ht, fun _ => rfl⟩

/-- The subtree below a valid entry grows. -/
theorem Grows.child {i : Nat} (ho : Owned g.IsPage s (tbl s.mem (L + 1) p))
    (ht : Tree s.mem (L + 1) p) (hi : i < 512) (hint : Interior (pteOf s.mem p i))
    (hg : Grows s s' L (PTE2PA (pteOf s.mem p i))) :
    Grows s s' (L + 1) p ∧ pteOf s'.mem p i = pteOf s.mem p i := by
  have hk : kid s.mem L p i = tbl s.mem L (PTE2PA (pteOf s.mem p i)) := kid_of_valid hint.valid
  have hperm := tbl_perm (m := s.mem) (L := L) (p := p) hi
  rw [hk] at hperm
  have ho' := ho.of_perm hperm.symm
  have hgraft : Graft s.mem s'.mem L p i := .of_siblings fun q hq => hg.turns.mem_eq ho' hq
  have he : pteOf s'.mem p i = pteOf s.mem p i :=
    pteOf_congr (hg.turns.mem_eq ho' mem_siblings_self)
  have hk' : kid s'.mem L p i = tbl s'.mem L (PTE2PA (pteOf s.mem p i)) := by
    rw [kid_of_valid (by rw [he]; exact hint.valid), he]
  have hperm' := hgraft.tbl_perm hi
  rw [hk'] at hperm'
  refine ⟨⟨(hg.turns.frame _).of_perm hperm hperm', hgraft.tree ht ?_, fun va => ?_⟩, he⟩
  · rw [he]
    exact ⟨hint, hg.tree⟩
  · by_cases hx : PX (L + 1) va = i
    · subst hx
      rw [look_of_valid hint.valid, look_of_valid (by rw [he]; exact hint.valid), he, hg.look]
    · exact hgraft.look_eq hx

/-- The empty page `r` is hung into the entry `i` of the page `p`, one of the
pages `A`. -/
structure Hung (s s' : Machine) (A : List Nat) (p i r : Nat) : Prop where
  turns : Turns s s' A (r :: A)
  blank : s'.mem r = Page.fill 0
  same : ∀ a ∈ A, a ≠ p → s'.mem a = s.mem a
  entry : pteOf s'.mem p i = PA2PTE r ||| PTE_V
  others : ∀ j, j ≠ i → pteOf s'.mem p j = pteOf s.mem p j

theorem Hung.of_kalloc {i : Nat} (ho : Owned g.IsPage s A) (hp : p ∈ A) (hi : i < 512)
    (h1 : Turns s s₁ [] [r]) :
    Hung s ((s₁.set r (Page.fill 0)).set p
      (((s₁.set r (Page.fill 0)).mem p).setLe (8 * i) 8 (PA2PTE r ||| PTE_V))) A p i r := by
  obtain ⟨ht, hm⟩ := fresh_page ho h1 (Page.fill 0)
  have ho' := ho.turns ht
  refine ⟨ht.trans (ho'.write (List.mem_cons_of_mem _ hp) _), ?_, ?_, ?_, ?_⟩
  · exact (Function.update_of_ne (hm p hp).1.symm _ _).trans (Function.update_self _ _ _)
  · exact fun a ha hap => (Function.update_of_ne hap _ _).trans (hm a ha).2
  · exact pteOf_setPte_self hi (pte_lt (lt_of_lt_phystop (ho'.mem_range List.mem_cons_self).2.2) (by decide))
  · exact fun j hj => (pteOf_setPte_of_ne (.inr hj)).trans (pteOf_congr (hm p hp).2)

theorem Hung.owned {i : Nat} (ho : Owned g.IsPage s A) (hh : Hung s s₂ A p i r) :
    Owned g.IsPage s₂ (tbl s₂.mem L r ++ A) := by
  rw [tbl_blank hh.blank]
  exact ho.turns hh.turns

/-- The subtree of a page that was hung in grows. -/
theorem Hung.grows {i : Nat} (ho : Owned g.IsPage s (tbl s.mem (L + 1) p))
    (ht : Tree s.mem (L + 1) p) (hi : i < 512) (h0 : pteOf s.mem p i = 0)
    (hh : Hung s s₂ (tbl s.mem (L + 1) p) p i r) (hg : Grows s₂ s' L r) :
    Grows s s' (L + 1) p ∧ Interior (pteOf s'.mem p i) ∧ PTE2PA (pteOf s'.mem p i) = r := by
  have ho2 := hh.owned (L := L) ho
  have hm : ∀ a ∈ tbl s.mem (L + 1) p, s'.mem a = s₂.mem a := fun a ha => hg.turns.mem_eq ho2 ha
  have hk : kid s.mem L p i = [] := kid_of_not_valid (by rw [h0]; exact not_valid_zero)
  have hperm := tbl_perm (m := s.mem) (L := L) (p := p) hi
  rw [hk, List.nil_append] at hperm
  have hn := ho.nodup_left
  have hgraft : Graft s.mem s'.mem L p i := by
    refine ⟨fun j _ hne => ?_, fun j hj hne q hq => ?_⟩
    · rw [pteOf_congr (hm p mem_tbl_self), hh.others j hne]
    · have hqp : q ≠ p := (siblings_ne hn hj hq p mem_siblings_self).symm
      rw [hm q (kid_subset hj hq), hh.same q (kid_subset hj hq) hqp]
  have he : pteOf s'.mem p i = PA2PTE r ||| PTE_V := by
    rw [pteOf_congr (hm p mem_tbl_self), hh.entry]
  have hr : g.IsPage r := (ho.turns hh.turns).mem_range List.mem_cons_self
  have hint : Interior (pteOf s'.mem p i) := he ▸ interior_pte r
  have hpa : PTE2PA (pteOf s'.mem p i) = r := by
    rw [he, PTE2PA_pte hr.1 (by decide)]
  have hk' : kid s'.mem L p i = tbl s'.mem L r := by rw [kid_of_valid hint.valid, hpa]
  have hperm' := hgraft.tbl_perm hi
  rw [hk'] at hperm'
  have hb : tbl s₂.mem L r = [r] := tbl_blank hh.blank
  have hturns := hg.turns
  rw [hb] at hturns
  refine ⟨⟨?_, hgraft.tree ht ?_, fun va => ?_⟩, hint, hpa⟩
  · refine (hh.turns.trans (hturns.frame _)).of_perm (.refl _) ?_
    exact hperm'.trans (hperm.symm.append_left _)
  · rw [hpa]
    exact ⟨hint, hg.tree⟩
  · by_cases hx : PX (L + 1) va = i
    · subst hx
      rw [look_of_valid hint.valid, hpa, hg.look, look_blank hh.blank,
        look_of_not_valid (by rw [h0]; exact not_valid_zero)]
    · exact hgraft.look_eq hx

/-- With `alloc`, `walk` hangs the missing pages into the tree. -/
theorem walkFrom_spec (ho : Owned g.IsPage s (tbl s.mem L p)) (ht : Tree s.mem L p) :
    wp (walkFrom va true L p)
      (fun r s' => Grows s s' L p ∧ (∀ x, r = some x → slot s'.mem va L p = some x) ∧
        Takes L (r = none) s s') E s := by
  induction L generalizing p s with
  | zero => exact ⟨Grows.refl ho ht, fun x hx => hx, (by cases ·), Nat.le_refl _⟩
  | succ L ih =>
      simp only [walkFrom, wp_bind, wp_readPte]
      rcases ht _ (@PX_lt (L + 1) va) with h0 | ⟨hint, htree⟩
      · rw [if_neg (by rw [h0]; exact not_valid_zero), if_neg (by decide), wp_bind]
        refine (kalloc_spec ho).mono ?_
        rintro r s₁ (⟨rfl, rfl, hlen⟩ | ⟨hr, h1⟩)
        · rw [if_pos rfl]
          exact ⟨Grows.refl ho ht, fun _ => (by cases ·), fun _ => by omega, by omega⟩
        · rw [if_neg hr]
          simp only [wp_bind, wp_memset, wp_writePte]
          have hh := Hung.of_kalloc ho mem_tbl_self (@PX_lt (L + 1) va) h1
          refine (ih (hh.owned ho).left (tree_blank hh.blank)).mono ?_
          rintro x s' ⟨hg, hs, hnone, hlen⟩
          obtain ⟨hgrow, hint, hpa⟩ := hh.grows ho ht PX_lt h0 hg
          have hlen₂ := hh.turns.length
          rw [List.length_cons] at hlen₂
          refine ⟨hgrow, fun y hy => ?_, fun hx => ?_, by omega⟩
          · rw [slot_succ, if_pos hint.valid, hpa]
            exact hs y hy
          · have := hnone hx
            omega
      · rw [if_pos hint.valid]
        have hk : kid s.mem L p _ = tbl s.mem L _ := kid_of_valid hint.valid
        have ho' := ho.of_perm (tbl_perm (@PX_lt (L + 1) va)).symm
        rw [hk] at ho'
        refine (ih ho'.left htree).mono ?_
        rintro x s' ⟨hg, hs, hnone, hlen⟩
        obtain ⟨hgrow, he⟩ := Grows.child ho ht PX_lt hint hg
        refine ⟨hgrow, fun y hy => ?_, fun hx => ?_, by omega⟩
        · rw [slot_succ, he, if_pos hint.valid]
          exact hs y hy
        · have := hnone hx
          omega

/-! ## The entries by page number -/

/-- The number of entries at the lowest level. -/
def NPTE : Nat := 2 ^ 27

/-- The entry for a page number. -/
def entry (m : Nat → Page) (p v : Nat) : Nat := look m 2 p (v * PGSIZE)

variable {m m' : Nat → Page} {v w q i e pa perm n : Nat} {l : List Nat} {do_free : Bool}

theorem samePath_page (hv : v < NPTE) (hw : w < NPTE) :
    SamePath 2 (v * PGSIZE) (w * PGSIZE) ↔ v = w := by
  rw [NPTE] at hv hw
  rw [samePath_iff (by rw [PGSIZE]; omega) (by rw [PGSIZE]; omega), PGSIZE]
  omega

theorem look_eq_entry (va : Nat) : look m 2 p va = entry m p (va / PGSIZE % NPTE) := by
  have hs : SamePath 2 va (va / PGSIZE % NPTE * PGSIZE) := by
    intro l hl
    have h3 : l = 0 ∨ l = 1 ∨ l = 2 := by omega
    rcases h3 with rfl | rfl | rfl <;> simp only [PX_eq, PGSIZE, NPTE] <;> omega
  rw [entry, look_samePath hs]

theorem entry_setPte (hn : (tbl m 2 p).Nodup) (hs : slot m (v * PGSIZE) 2 p = some (q, i))
    (he : e < 2 ^ 64) (hv : v < NPTE) (hw : w < NPTE) :
    entry (setPte m q i e) p w = if w = v then e else entry m p w := by
  split
  · next h => exact look_setPte_self hn hs he ((samePath_page hv hw).mpr h.symm)
  · next h => exact look_setPte_of_ne hn hs fun hc => h ((samePath_page hv hw).mp hc).symm

/-- A page with a valid entry has a place for it. -/
theorem exists_slot (h : Valid (entry m p v)) :
    ∃ q i, slot m (v * PGSIZE) 2 p = some (q, i) ∧ pteOf m q i = entry m p v := by
  cases hs : slot m (v * PGSIZE) 2 p with
  | none => exact absurd ((look_of_slot_none hs) ▸ h) not_valid_zero
  | some x => exact ⟨x.1, x.2, rfl, (look_of_slot hs).symm⟩

theorem page_lt_maxva (hv : v < 2 ^ 26) : v * PGSIZE < MAXVA := by
  have h1 : MAXVA = 2 ^ 26 * PGSIZE := by decide
  rw [h1]
  exact Nat.mul_lt_mul_of_pos_right hv (by decide)

theorem lt_npte (hv : v < 2 ^ 26) : v < NPTE := by
  rw [NPTE]
  omega

/-! ## `mappages` -/

/-- One page is mapped, or no page can be had for the tree.  A page that is mapped
already is a panic. -/
theorem mapPage_spec (ho : Owned g.IsPage s (tbl s.mem 2 p)) (ht : Tree s.mem 2 p)
    (hv : v < 2 ^ 26) (hE : Valid (entry s.mem p v) → E .mapRemap) (hpa : pa < 2 ^ 64)
    (hperm : perm < 1024) :
    wp (mapPage p (v * PGSIZE) pa perm) (fun r s' =>
      Turns s s' (tbl s.mem 2 p) (tbl s'.mem 2 p) ∧ Tree s'.mem 2 p ∧ Takes 2 (r = -1) s s' ∧
        (r = -1 ∧ (∀ w, entry s'.mem p w = entry s.mem p w) ∨
          r = 0 ∧ ∀ w < NPTE, entry s'.mem p w =
            if w = v then PA2PTE pa ||| perm ||| PTE_V else entry s.mem p w)) E s := by
  simp only [mapPage, wp_bind]
  rw [walk, if_neg (Nat.not_le.mpr (page_lt_maxva hv))]
  refine (walkFrom_spec ho ht).mono ?_
  rintro x s' ⟨hg, hs, hnone, hlen⟩
  cases x with
  | none => exact ⟨hg.turns, hg.tree, ⟨fun _ => hnone rfl, hlen⟩, .inl ⟨rfl, fun w => hg.look _⟩⟩
  | some x =>
      obtain ⟨q, i⟩ := x
      have hslot := hs _ rfl
      have he : pteOf s'.mem q i = entry s.mem p v := by
        rw [← look_of_slot hslot, hg.look]
        rfl
      have ho' := ho.turns hg.turns
      have hn := ho'.nodup_left
      rw [wp_bind, wp_readPte, he]
      by_cases h0 : Valid (entry s.mem p v)
      · rw [if_pos h0]
        exact hE h0
      rw [if_neg h0, wp_bind, wp_writePte, wp_pure]
      obtain ⟨htbl, htree, _⟩ := setPte_tree (e := PA2PTE pa ||| perm ||| PTE_V) hn hslot
      have hlt : PA2PTE pa ||| perm ||| PTE_V < 2 ^ 64 := by
        rw [Nat.lor_assoc]
        exact pte_lt hpa (Nat.or_lt_two_pow (n := 10) hperm (by decide))
      have hw := ho'.write (slot_mem hslot).1
      refine ⟨?_, htree hg.tree, ⟨(by cases ·), ?_⟩, .inr ⟨rfl, fun w hw => ?_⟩⟩
      · rw [mem_set_pte, htbl]
        exact hg.turns.trans (hw _)
      · have hlen' := (hw ((s'.mem q).setLe (8 * i) 8 (PA2PTE pa ||| perm ||| PTE_V))).length
        omega
      · rw [mem_set_pte, entry_setPte hn hslot hlt (lt_npte hv) hw]
        split
        · rfl
        · exact hg.look _

/-- For one aligned page `mappages` makes one round. -/
theorem mappages_page : mappages p (v * PGSIZE) PGSIZE pa perm = mapPage p (v * PGSIZE) pa perm := by
  have h1 : PGROUNDDOWN (v * PGSIZE) = v * PGSIZE := by rw [PGROUNDDOWN, PGSIZE]; omega
  have h2 : PGROUNDDOWN (v * PGSIZE + PGSIZE - 1) = v * PGSIZE := by
    rw [PGROUNDDOWN, PGSIZE]; omega
  rw [mappages, if_neg (by decide)]
  simp only [h1, h2, Nat.sub_self, Nat.zero_div]
  rfl

/-! ## `uvmunmap` -/

/-- The pages that the entries of `n` page numbers from `v` on refer to. -/
def targets (m : Nat → Page) (p v n : Nat) : List Nat :=
  (List.range' v n).map fun w => PTE2PA (entry m p w)

theorem targets_succ : targets m p v (n + 1) = PTE2PA (entry m p v) :: targets m p (v + 1) n := by
  rw [targets, List.range'_succ, List.map_cons, targets]

theorem targets_ext (h : ∀ w, v ≤ w → w < v + n → PTE2PA (entry m' p w) = PTE2PA (entry m p w)) :
    targets m' p v n = targets m p v n := by
  apply List.map_congr_left
  intro w hw
  have hr := List.mem_range'_1.mp hw
  exact h w hr.1 hr.2

theorem targets_congr (h : ∀ w, v ≤ w → w < v + n → entry m' p w = entry m p w) :
    targets m' p v n = targets m p v n :=
  targets_ext fun w h1 h2 => by rw [h w h1 h2]

theorem entry_congr (h : ∀ q ∈ tbl m 2 p, m' q = m q) :
    entry m' p v = entry m p v := look_congr h

theorem succ_mul_pgsize : v * PGSIZE + PGSIZE = (v + 1) * PGSIZE := (Nat.succ_mul v PGSIZE).symm

/-- A list that is there under a condition. -/
def onlyIf (c : Bool) (l : List Nat) : List Nat := if c then l else []

@[simp] theorem onlyIf_true : onlyIf true l = l := rfl

@[simp] theorem onlyIf_false : onlyIf false l = [] := rfl

theorem onlyIf_append (c : Bool) (l l' : List Nat) : onlyIf c (l ++ l') = onlyIf c l ++ onlyIf c l' := by
  cases c <;> rfl

/-- A page is freed under a condition. -/
theorem kfree_whenever_spec {c : Bool} (ho : Owned g.IsPage s (onlyIf c [a] ++ A)) :
    wp (whenever c (kfree g a)) (fun _ s' => Turns s s' (onlyIf c [a]) []) E s := by
  cases c with
  | false => exact (wp_whenever_neg (by decide)).mpr ho.left.refl
  | true => exact (wp_whenever_pos rfl).mpr (kfree_spec ho)

/-- Entry `v` is cleared in a state in which the tree is as it was. -/
theorem clear_spec (hn : (tbl s.mem 2 p).Nodup) (ht : Tree s.mem 2 p)
    (hm : ∀ q ∈ tbl s.mem 2 p, s₁.mem q = s.mem q) (hs : slot s.mem (v * PGSIZE) 2 p = some (q, i))
    (hv : v < NPTE) (he : e < 2 ^ 64) :
    tbl (setPte s₁.mem q i e) 2 p = tbl s.mem 2 p ∧ Tree (setPte s₁.mem q i e) 2 p ∧
      ∀ w < NPTE, entry (setPte s₁.mem q i e) p w = if w = v then e else entry s.mem p w := by
  have htbl := tbl_congr hm
  have hs₁ : slot s₁.mem (v * PGSIZE) 2 p = some (q, i) := by rw [slot_congr hm, hs]
  have hn₁ : (tbl s₁.mem 2 p).Nodup := by rwa [htbl]
  obtain ⟨htbl', htree, _⟩ := setPte_tree (e := e) hn₁ hs₁
  refine ⟨by rw [htbl', htbl], htree (ht.congr hm), fun w hw => ?_⟩
  rw [entry_setPte hn₁ hs₁ he hv hw, entry_congr hm]

/-- An entry that `uvmunmap` accepts. -/
structure Mapped (e : Nat) : Prop where
  valid : Valid e
  notInterior : PTE_FLAGS e ≠ PTE_V

theorem Leaf.mapped (h : Leaf e) : Mapped e := ⟨h.valid, h.flags_ne⟩

/-- The mappings of `n` pages are removed, and the pages freed if `do_free` is
set. -/
theorem uvmunmapLoop_spec
    (ho : Owned g.IsPage s (tbl s.mem 2 p ++ onlyIf do_free (targets s.mem p v n)))
    (ht : Tree s.mem 2 p) (hv : v + n ≤ 2 ^ 26)
    (hl : ∀ w, v ≤ w → w < v + n → Mapped (entry s.mem p w)) :
    wp (uvmunmapLoop g p do_free n (v * PGSIZE)) (fun _ s' =>
      Turns s s' (tbl s.mem 2 p ++ onlyIf do_free (targets s.mem p v n)) (tbl s.mem 2 p) ∧
        tbl s'.mem 2 p = tbl s.mem 2 p ∧ Tree s'.mem 2 p ∧
        ∀ w < NPTE, entry s'.mem p w = if v ≤ w ∧ w < v + n then 0 else entry s.mem p w) E s := by
  induction n generalizing v s with
  | zero =>
      have hnil : onlyIf do_free (targets s.mem p v 0) = [] := by cases do_free <;> rfl
      rw [hnil, List.append_nil] at ho ⊢
      refine ⟨ho.refl, rfl, ht, fun w _ => ?_⟩
      rw [if_neg (by omega)]
  | succ n ih =>
      have hleaf := hl v (Nat.le_refl v) (by omega)
      have hvn : v < NPTE := lt_npte (by omega)
      obtain ⟨q, i, hs, he⟩ := exists_slot hleaf.valid
      rw [uvmunmapLoop, wp_bind, wp_walk (page_lt_maxva (by omega)), hs]
      rw [wp_bind, wp_readPte, he, if_neg hleaf.valid, if_neg hleaf.notInterior, wp_bind]
      rw [targets_succ, ← List.singleton_append, onlyIf_append] at ho ⊢
      have hperm := (List.perm_append_comm_assoc (tbl s.mem 2 p)
        (onlyIf do_free [PTE2PA (entry s.mem p v)]) (onlyIf do_free (targets s.mem p (v + 1) n)))
      have ho₁ := ho.of_perm hperm.symm
      refine (kfree_whenever_spec ho₁).mono ?_
      intro _ s₁ h₁
      rw [wp_bind, wp_writePte, succ_mul_pgsize]
      have hq : q ∈ tbl s.mem 2 p := (slot_mem hs).1
      have hm : ∀ q ∈ tbl s.mem 2 p, s₁.mem q = s.mem q := fun q hq =>
        h₁.mem_eq ho₁ (List.mem_append_left _ hq)
      obtain ⟨htbl, htree, hent⟩ := clear_spec ho.left.nodup_left ht hm hs hvn (e := 0) (by decide)
      have htg : targets (setPte s₁.mem q i 0) p (v + 1) n = targets s.mem p (v + 1) n :=
        targets_congr fun w h1 h2 => by rw [hent w (lt_npte (by omega)), if_neg (by omega)]
      have ho₂ := ho₁.turns (h₁.frame _)
      have hwr := ho₂.write (List.mem_append_right [] (List.mem_append_left _ hq)) ((s₁.mem q).setLe (8 * i) 8 0)
      have hturns := (h₁.frame _).trans hwr
      refine wp.mono (ih (s := s₁.set q ((s₁.mem q).setLe (8 * i) 8 0)) (v := v + 1) ?_ htree
        (by omega) ?_) ?_
      · rw [mem_set_pte, htbl, htg]
        exact ho₂.turns hwr
      · intro w h1 h2
        rw [mem_set_pte, hent w (lt_npte (by omega)), if_neg (by omega)]
        exact hl w (by omega) (by omega)
      · rintro _ s' ⟨ht', htbl', htree', hent'⟩
        rw [mem_set_pte, htbl, htg] at ht'
        rw [mem_set_pte, htbl] at htbl'
        refine ⟨(hturns.trans ht').of_perm hperm (.refl _), htbl', htree', fun w hw => ?_⟩
        rw [hent' w hw, mem_set_pte, hent w hw]
        split_ifs <;> first | rfl | omega

theorem uvmunmap_spec
    (ho : Owned g.IsPage s (tbl s.mem 2 p ++ onlyIf do_free (targets s.mem p v n)))
    (ht : Tree s.mem 2 p) (hv : v + n ≤ 2 ^ 26)
    (hl : ∀ w, v ≤ w → w < v + n → Mapped (entry s.mem p w)) :
    wp (uvmunmap g p (v * PGSIZE) n do_free) (fun _ s' =>
      Turns s s' (tbl s.mem 2 p ++ onlyIf do_free (targets s.mem p v n)) (tbl s.mem 2 p) ∧
        tbl s'.mem 2 p = tbl s.mem 2 p ∧ Tree s'.mem 2 p ∧
        ∀ w < NPTE, entry s'.mem p w = if v ≤ w ∧ w < v + n then 0 else entry s.mem p w) E s := by
  rw [uvmunmap, if_neg (by rw [Nat.mul_mod_left]; exact not_not_intro rfl)]
  exact uvmunmapLoop_spec ho ht hv hl

/-! ## `freewalk` -/

/-- A page of zeroes has nothing to free below it. -/
theorem freewalkLoop_zero {child : Nat → Kern Unit} {i : Nat}
    (hz : ∀ j, i ≤ j → j < i + n → pteOf s.mem p j = 0) :
    wp (freewalkLoop child p n i) Q E s ↔ Q () s := by
  induction n generalizing i with
  | zero => exact Iff.rfl
  | succ n ih =>
      have h0 := hz i (Nat.le_refl i) (by omega)
      rw [freewalkLoop, wp_bind, wp_readPte, h0, if_neg (fun hc => not_valid_zero hc.1),
        if_neg not_valid_zero]
      exact ih fun j h1 h2 => hz j (by omega) (by omega)

/-- The pages below the entries from `i` on are freed. -/
theorem freewalkLoop_spec {child : Nat → Kern Unit} {i : Nat}
    (hchild : ∀ (s : Machine) (c : Nat), Owned g.IsPage s (tbl s.mem L c) → Tree s.mem L c →
      (∀ va, look s.mem L c va = 0) →
        wp (child c) (fun _ s' => Turns s s' (tbl s.mem L c) []) E s)
    (ho : Owned g.IsPage s (p :: (List.range' i n).flatMap (kid s.mem L p)))
    (hk : ∀ j, i ≤ j → j < i + n → pteOf s.mem p j = 0 ∨ Interior (pteOf s.mem p j) ∧
      Tree s.mem L (PTE2PA (pteOf s.mem p j)) ∧
        ∀ va, look s.mem L (PTE2PA (pteOf s.mem p j)) va = 0) :
    wp (freewalkLoop child p n i)
      (fun _ s' => Turns s s' (p :: (List.range' i n).flatMap (kid s.mem L p)) [p]) E s := by
  induction n generalizing i s with
  | zero => exact ho.refl
  | succ n ih =>
      rw [freewalkLoop, wp_bind, wp_readPte]
      rw [List.range'_succ, List.flatMap_cons] at ho ⊢
      rcases hk i (Nat.le_refl i) (by omega) with h0 | ⟨hint, htree, hlook⟩
      · have hnil : kid s.mem L p i = [] := kid_of_not_valid (by rw [h0]; exact not_valid_zero)
        rw [hnil, List.nil_append] at ho ⊢
        rw [h0, if_neg (fun hc => not_valid_zero hc.1), if_neg not_valid_zero]
        exact ih ho fun j h1 h2 => hk j (by omega) (by omega)
      · have hkid : kid s.mem L p i = tbl s.mem L (PTE2PA (pteOf s.mem p i)) :=
          kid_of_valid hint.valid
        rw [if_pos ⟨hint.valid, hint.noLeaf⟩, wp_bind]
        have hperm : (kid s.mem L p i ++
            p :: (List.range' (i + 1) n).flatMap (kid s.mem L p)).Perm _ := List.perm_middle
        rw [hkid] at hperm ho ⊢
        have ho' := ho.of_perm hperm
        refine (hchild s _ ho'.left htree hlook).mono ?_
        intro _ s₁ h₁
        rw [wp_bind, wp_writePte]
        have ho₁ := ho'.turns (h₁.frame _)
        have hm : ∀ q ∈ p :: (List.range' (i + 1) n).flatMap (kid s.mem L p), s₁.mem q = s.mem q :=
          fun q hq => h₁.mem_eq ho' hq
        have hpte : ∀ j, j ≠ i → pteOf (setPte s₁.mem p i 0) p j = pteOf s.mem p j := fun j hj => by
          rw [pteOf_setPte_of_ne (.inr hj), pteOf_congr (hm p List.mem_cons_self)]
        have hbelow : ∀ j, i + 1 ≤ j → j < i + 1 + n → ∀ q ∈ kid s.mem L p j,
            setPte s₁.mem p i 0 q = s.mem q := by
          intro j h1 h2 q hq
          have hmem : q ∈ (List.range' (i + 1) n).flatMap (kid s.mem L p) :=
            List.mem_flatMap.mpr ⟨j, List.mem_range'_1.mpr ⟨h1, h2⟩, hq⟩
          have hnot := (List.nodup_cons.mp ho'.right.nodup_left).1
          have hne : q ≠ p := by
            rintro rfl
            exact hnot hmem
          rw [setPte_of_ne hne, hm q (List.mem_cons_of_mem _ hmem)]
        have hkids : (List.range' (i + 1) n).flatMap (kid (setPte s₁.mem p i 0) L p) =
            (List.range' (i + 1) n).flatMap (kid s.mem L p) := by
          apply List.flatMap_congr
          intro j hj
          have hr := List.mem_range'_1.mp hj
          exact kid_congr (hpte j (by omega)) (hbelow j hr.1 hr.2)
        have hwr := ho₁.write (List.mem_append_right [] List.mem_cons_self)
          ((s₁.mem p).setLe (8 * i) 8 0)
        refine wp.mono (ih (s := s₁.set p ((s₁.mem p).setLe (8 * i) 8 0)) ?_ ?_) ?_
        · rw [mem_set_pte, hkids]
          exact ho₁.turns hwr
        · intro j h1 h2
          rw [mem_set_pte, hpte j (by omega)]
          rcases hk j (by omega) (by omega) with h0 | ⟨hint, htree, hlook⟩
          · exact .inl h0
          · have hb := hbelow j h1 h2
            rw [kid_of_valid hint.valid] at hb
            exact .inr ⟨hint, htree.congr hb, fun va => by rw [look_congr hb, hlook va]⟩
        · intro _ s' ht'
          rw [mem_set_pte, hkids] at ht'
          exact (((h₁.frame _).trans hwr).trans ht').of_perm hperm.symm (.refl _)

theorem freewalkDepth_spec (ho : Owned g.IsPage s (tbl s.mem L p)) (ht : Tree s.mem L p)
    (hz : ∀ va, look s.mem L p va = 0) :
    wp (freewalkDepth g (L + 1) p) (fun _ s' => Turns s s' (tbl s.mem L p) []) E s := by
  induction L generalizing p s with
  | zero =>
      rw [tbl_zero] at ho ⊢
      rw [freewalkDepth, wp_bind, freewalkLoop_zero fun j _ h2 => pteOf_zero_of_look hz (by omega)]
      exact kfree_spec ho
  | succ L ih =>
      rw [freewalkDepth, wp_bind]
      rw [tbl_succ, List.range_eq_range'] at ho ⊢
      refine wp.mono (freewalkLoop_spec (L := L) (fun s c h1 h2 h3 => ih h1 h2 h3) ho ?_) ?_
      · intro j _ h2
        rcases ht j (by omega) with h0 | ⟨hint, htree⟩
        · exact .inl h0
        · exact .inr ⟨hint, htree, look_kid_zero hz (by omega) hint.valid⟩
      · intro _ s₁ h₁
        exact (kfree_spec (A := []) (ho.turns h₁)).mono fun _ s₂ h₂ => h₁.trans h₂

/-- The pages of a tree without mappings are freed. -/
theorem freewalk_spec (ho : Owned g.IsPage s (tbl s.mem 2 p)) (ht : Tree s.mem 2 p)
    (hz : ∀ v < NPTE, entry s.mem p v = 0) :
    wp (freewalk g p) (fun _ s' => Turns s s' (tbl s.mem 2 p) []) E s := by
  refine freewalkDepth_spec ho ht fun va => ?_
  rw [look_eq_entry]
  exact hz _ (Nat.mod_lt _ (by decide))

/-! ## `walkaddr` and `uvmclear` -/

/-- The address that `walkaddr` finds. -/
def addrOf (m : Nat → Page) (p va : Nat) : Nat :=
  if MAXVA ≤ va then 0
  else if Valid (look m 2 p va) ∧ look m 2 p va &&& PTE_U ≠ 0 then PTE2PA (look m 2 p va)
  else 0

theorem wp_walkaddr {Q : Nat → Machine → Prop} :
    wp (walkaddr p va) Q E s ↔ Q (addrOf s.mem p va) s := by
  rw [walkaddr, addrOf]
  split
  · exact Iff.rfl
  · next h =>
      rw [wp_bind, wp_walk (Nat.not_le.mp h)]
      cases hs : slot s.mem va 2 p with
      | none =>
          rw [look_of_slot_none hs, if_neg fun hc => not_valid_zero hc.1]
          exact Iff.rfl
      | some x =>
          obtain ⟨q, i⟩ := x
          rw [wp_bind, wp_readPte, look_of_slot hs]
          by_cases hv : Valid (pteOf s.mem q i)
          · rw [if_neg hv]
            by_cases hu : pteOf s.mem q i &&& PTE_U = 0
            · rw [if_pos hu, if_neg fun hc => hc.2 hu]
              exact Iff.rfl
            · rw [if_neg hu, if_pos ⟨hv, hu⟩]
              exact Iff.rfl
          · rw [if_pos (not_not.mp hv), if_neg fun hc => hv hc.1]
            exact Iff.rfl

/-- Only pages that the user may use are found. -/
theorem addrOf_ne_zero (h : addrOf m p va ≠ 0) : va < MAXVA ∧
    Valid (entry m p (va / PGSIZE)) ∧ entry m p (va / PGSIZE) &&& PTE_U ≠ 0 ∧
      addrOf m p va = PTE2PA (entry m p (va / PGSIZE)) := by
  unfold addrOf at h ⊢
  split at h
  · exact absurd rfl h
  · next hva =>
      have hlt : va / PGSIZE < NPTE := by
        have h1 : MAXVA = 2 ^ 38 := rfl
        rw [PGSIZE, NPTE]
        omega
      have he : look m 2 p va = entry m p (va / PGSIZE) := by
        rw [look_eq_entry, Nat.mod_eq_of_lt hlt]
      rw [he] at h ⊢
      split at h
      · next hc => exact ⟨Nat.not_le.mp hva, hc.1, hc.2, by rw [if_neg hva, if_pos hc]⟩
      · exact absurd rfl h

theorem addrOf_page (hv : v < 2 ^ 26) (h : Valid (entry m p v)) (hu : entry m p v &&& PTE_U ≠ 0) :
    addrOf m p (v * PGSIZE) = PTE2PA (entry m p v) := by
  rw [addrOf, if_neg (Nat.not_le.mpr (page_lt_maxva hv))]
  exact if_pos ⟨h, hu⟩

end Xv6.Vm
