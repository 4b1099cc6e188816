import Xv6.Vm.Space
import Xv6.Vm.Exec

/-!
# Making, freeing, copying and using address spaces

The functions of `kernel/proc.c`, `kernel/vm.c` and `kernel/exec.c` that make a
page table with its two special mappings, free one with everything below it,
copy one into another, and copy bytes between an address space and the kernel.
-/

namespace Xv6.Vm

open Hoare FreeList

variable {g : Layout} {s : Machine} {A : List Nat} {E : Panic → Prop}
variable {m m' m₁ m₂ : Nat → Page} {p np fr tr v w pa perm sz e c fr' tr' : Nat}

/-! ## The special mappings -/

/-- The entry for `TRAPFRAME`. -/
def framePte (trapframe : Nat) : Nat := PA2PTE trapframe ||| (PTE_R ||| PTE_W) ||| PTE_V

/-- The entry for `TRAMPOLINE`. -/
def trampPte (g : Layout) : Nat := PA2PTE g.trampoline ||| (PTE_R ||| PTE_X) ||| PTE_V

theorem leaf_framePte (tf : Nat) : Leaf (framePte tf) := leaf_pte (by decide)

theorem leaf_trampPte : Leaf (trampPte g) := leaf_pte (by decide)

theorem Space.set_tramp (hs : Space m p np fr tr) (ht : Tree m' 2 p) (hnp : np ≤ ramPages)
    (hent : ∀ w < NPTE, entry m' p w = if w = trampPage then e else entry m p w) :
    Space m' p np fr e := by
  have hlt := ramPages_lt
  have hfp : framePage = 2 ^ 26 - 2 := rfl
  have htp : trampPage = 2 ^ 26 - 1 := rfl
  have hnpte : NPTE = 2 ^ 27 := rfl
  refine ⟨ht, fun v hv => ?_, fun v h1 h2 h3 h4 => ?_, ?_, ?_⟩
  · rw [hent v (by omega), if_neg (by omega)]
    exact hs.user v hv
  · rw [hent v h2, if_neg h4]
    exact hs.rest v h1 h2 h3 h4
  · rw [hent _ (by omega), if_neg (by omega), hs.frame]
  · rw [hent _ (by omega), if_pos rfl]

theorem Space.set_frame (hs : Space m p np fr tr) (ht : Tree m' 2 p) (hnp : np ≤ ramPages)
    (hent : ∀ w < NPTE, entry m' p w = if w = framePage then e else entry m p w) :
    Space m' p np e tr := by
  have hlt := ramPages_lt
  have hfp : framePage = 2 ^ 26 - 2 := rfl
  have htp : trampPage = 2 ^ 26 - 1 := rfl
  have hnpte : NPTE = 2 ^ 27 := rfl
  refine ⟨ht, fun v hv => ?_, fun v h1 h2 h3 h4 => ?_, ?_, ?_⟩
  · rw [hent v (by omega), if_neg (by omega)]
    exact hs.user v hv
  · rw [hent v h2, if_neg h3]
    exact hs.rest v h1 h2 h3 h4
  · rw [hent _ (by omega), if_pos rfl]
  · rw [hent _ (by omega), if_neg (by omega), hs.tramp]

/-- The entry of a page above user memory is set. -/
theorem mapTop_spec (hs : Space s.mem p np fr tr) (ho : Owned g.IsPage s (space s.mem p np))
    (hv : np ≤ v) (hlt : v < 2 ^ 26) (h0 : entry s.mem p v = 0) (hpa : pa < PHYSTOP)
    (hperm : perm < 1024) :
    wp (mappages p (v * PGSIZE) PGSIZE pa perm) (fun x s' =>
      Turns s s' (space s.mem p np) (space s'.mem p np) ∧ Tree s'.mem 2 p ∧ Takes 2 (x = -1) s s' ∧
        (x = -1 ∧ (∀ w, entry s'.mem p w = entry s.mem p w) ∨
          x = 0 ∧ ∀ w < NPTE, entry s'.mem p w =
            if w = v then PA2PTE pa ||| perm ||| PTE_V else entry s.mem p w)) E s := by
  rw [mappages_page]
  refine wp.mono (mapPage_spec ho.left hs.tree hlt (fun hv => absurd (h0 ▸ hv) not_valid_zero)
    (lt_of_lt_phystop hpa) hperm) ?_
  rintro x s' ⟨ht, htree, htakes, hcase⟩
  refine ⟨?_, htree, htakes, hcase⟩
  have htg : targets s'.mem p 0 np = targets s.mem p 0 np := targets_congr fun w _ h2 => by
    rcases hcase with ⟨_, hent⟩ | ⟨_, hent⟩
    · exact hent w
    · rw [hent w (lt_npte (by omega)), if_neg (by omega)]
  have hsp : space s'.mem p np = tbl s'.mem 2 p ++ targets s.mem p 0 np := by rw [space, htg]
  rw [hsp]
  exact ht.frame _

/-- The mapping of a page above user memory is removed. -/
theorem unmapTop_spec (hs : Space s.mem p np fr tr) (ho : Owned g.IsPage s (space s.mem p np))
    (hv : np ≤ v) (hlt : v < 2 ^ 26) (hl : Leaf (entry s.mem p v)) :
    wp (uvmunmap g p (v * PGSIZE) 1 false) (fun _ s' =>
      Turns s s' (space s.mem p np) (space s'.mem p np) ∧ Tree s'.mem 2 p ∧
        ∀ w < NPTE, entry s'.mem p w = if w = v then 0 else entry s.mem p w) E s := by
  have ho' : Owned g.IsPage s (tbl s.mem 2 p ++ onlyIf false (targets s.mem p v 1)) := by
    rw [onlyIf_false, List.append_nil]
    exact ho.left
  have hleaf : ∀ w, v ≤ w → w < v + 1 → Mapped (entry s.mem p w) := fun w h1 h2 => by
    have hw : w = v := by omega
    rw [hw]
    exact hl.mapped
  refine (uvmunmap_spec ho' hs.tree (by omega) hleaf).mono ?_
  rintro _ s' ⟨ht, htbl, htree, hent⟩
  have hent' : ∀ w < NPTE, entry s'.mem p w = if w = v then 0 else entry s.mem p w := by
    intro w hw
    rw [hent w hw]
    split_ifs <;> first | rfl | omega
  have htg : targets s'.mem p 0 np = targets s.mem p 0 np := targets_congr fun w _ h2 => by
    rw [hent' w (lt_npte (by omega)), if_neg (by omega)]
  have hsp : space s'.mem p np = space s.mem p np := by rw [space, space, htbl, htg]
  rw [onlyIf_false, List.append_nil] at ht
  refine ⟨?_, htree, hent'⟩
  rw [hsp]
  exact ht.frame _

/-! ## Freeing -/

theorem space_zero : space m p 0 = tbl m 2 p := List.append_nil _

/-- An address space without the special mappings is freed. -/
theorem uvmfree_spec (hs : Space s.mem p (npages sz) 0 0)
    (ho : Owned g.IsPage s (space s.mem p (npages sz))) :
    wp (uvmfree g p sz) (fun _ s' => Turns s s' (space s.mem p (npages sz)) []) E s := by
  have hfree : ∀ s₁ : Machine, Space s₁.mem p 0 0 0 →
      Turns s s₁ (space s.mem p (npages sz)) (space s₁.mem p 0) →
      wp (freewalk g p) (fun _ s' => Turns s s' (space s.mem p (npages sz)) []) E s₁ := by
    intro s₁ hs₁ ht₁
    rw [space_zero] at ht₁
    refine wp.mono (freewalk_spec (ho.turns ht₁) hs₁.tree fun v hv => ?_) ?_
    · by_cases h1 : v = framePage
      · rw [h1, hs₁.frame]
      · by_cases h2 : v = trampPage
        · rw [h2, hs₁.tramp]
        · exact hs₁.rest v (Nat.zero_le v) hv h1 h2
    · exact fun _ s' ht' => ht₁.trans ht'
  rw [uvmfree, wp_bind]
  by_cases h : 0 < sz
  · have hdiv : PGROUNDUP sz / PGSIZE = npages sz := by
      rw [PGROUNDUP_eq, Nat.mul_div_cancel _ (by decide)]
    rw [wp_whenever_pos h, hdiv, ← Nat.zero_mul PGSIZE]
    rw [← Nat.zero_add (npages sz)] at hs ho
    refine (unmapUser_spec hs ho).mono ?_
    rintro _ s₁ ⟨hs₁, ht₁, _⟩
    rw [Nat.zero_add] at ht₁
    exact hfree s₁ hs₁ ht₁
  · have h0 : npages sz = 0 := by
      rw [npages, PGSIZE]
      omega
    rw [wp_whenever_neg h]
    rw [h0] at hs ho hfree ⊢
    exact hfree s hs ho.refl

/-- The page table of a process is freed with the user pages. -/
theorem proc_freepagetable_spec (hs : Space s.mem p (npages sz) fr tr)
    (ho : Owned g.IsPage s (space s.mem p (npages sz))) (hfr : Leaf fr) (htr : Leaf tr) :
    wp (proc_freepagetable g p sz) (fun _ s' => Turns s s' (space s.mem p (npages sz)) []) E s := by
  have hnp : npages sz ≤ ramPages := np_le ho
  have hlt := ramPages_lt
  have hfp : framePage = 2 ^ 26 - 2 := rfl
  have htp : trampPage = 2 ^ 26 - 1 := rfl
  rw [proc_freepagetable, wp_bind, trampoline_eq]
  refine wp.mono (unmapTop_spec hs ho (by omega) (by omega) (hs.tramp ▸ htr)) ?_
  rintro _ s₁ ⟨ht₁, htree₁, hent₁⟩
  have hs₁ := hs.set_tramp htree₁ hnp hent₁
  rw [wp_bind, trapframe_eq]
  refine wp.mono (unmapTop_spec hs₁ (ho.turns ht₁) (by omega) (by omega) (hs₁.frame ▸ hfr)) ?_
  rintro _ s₂ ⟨ht₂, htree₂, hent₂⟩
  have hs₂ := hs₁.set_frame htree₂ hnp hent₂
  exact (uvmfree_spec hs₂ (ho.turns (ht₁.trans ht₂))).mono fun _ s' ht' => (ht₁.trans ht₂).trans ht'

/-! ## Making -/

theorem Space.blank (h : m p = Page.fill 0) : Space m p 0 0 0 where
  tree := tree_blank h
  user := fun v hv => by omega
  rest := fun v _ _ _ _ => look_blank h
  frame := look_blank h
  tramp := look_blank h

/-- A page table with the special mappings only, or nothing. -/
theorem proc_pagetable_spec {tf : Nat} (ho : Owned g.IsPage s A) (htf : tf < PHYSTOP) :
    wp (proc_pagetable g tf) (fun r s' => Takes 5 (r = 0) s s' ∧
      (r = 0 ∧ Turns s s' [] [] ∨
        r ≠ 0 ∧ Turns s s' [] (space s'.mem r 0) ∧
          Space s'.mem r 0 (framePte tf) (trampPte g))) E s := by
  have hfp : framePage = 2 ^ 26 - 2 := rfl
  have htp : trampPage = 2 ^ 26 - 1 := rfl
  have ho0 : Owned g.IsPage s [] := (ho.of_perm (.refl ([] ++ A))).left
  rw [proc_pagetable, wp_bind, uvmcreate, wp_bind]
  refine (kalloc_spec ho0).mono ?_
  rintro r s₁ (⟨rfl, rfl, hnone⟩ | ⟨hr, h₁⟩)
  · rw [if_pos rfl]
    exact ⟨⟨fun _ => by omega, Nat.le_add_right ..⟩, .inl ⟨rfl, ho0.refl⟩⟩
  · rw [if_neg hr, wp_bind, wp_memset, wp_pure, if_neg hr, wp_bind, trampoline_eq]
    obtain ⟨ht₂, _⟩ := fresh_page ho0 h₁ (Page.fill 0)
    have hb : (s₁.set r (Page.fill 0)).mem r = Page.fill 0 := Function.update_self _ _ _
    generalize s₁.set r (Page.fill 0) = s₂ at ht₂ hb ⊢
    have hs₂ : Space s₂.mem r 0 0 0 := Space.blank hb
    have hlen₂ := ht₂.length
    simp only [List.length_cons, List.length_nil] at hlen₂
    replace ht₂ : Turns s s₂ [] (space s₂.mem r 0) := by
      rw [space_zero, tbl_blank hb]
      exact ht₂
    have ho₂ := ho0.turns ht₂
    refine wp.mono (mapTop_spec hs₂ ho₂ (Nat.zero_le _) (by omega) hs₂.tramp g.trampoline_lt
      (by decide)) ?_
    rintro x s₃ ⟨ht₃, htree₃, htakes₃, ⟨rfl, hent₃⟩ | ⟨rfl, hent₃⟩⟩
    · rw [if_pos (by decide), wp_bind]
      have hfree := htakes₃.free rfl
      have hs₃ : Space s₃.mem r (npages 0) 0 0 :=
        hs₂.set_tramp htree₃ (Nat.zero_le _) fun w _ => by
          rw [hent₃]
          split
          · next h => rw [h, hs₂.tramp]
          · rfl
      refine (uvmfree_spec hs₃ (ho₂.turns ht₃)).mono fun _ s' ht' => ?_
      have hback := (ht₂.trans ht₃).trans ht'
      exact ⟨.of_turns hback (by omega), .inl ⟨rfl, hback⟩⟩
    · rw [if_neg (by decide), wp_bind, trapframe_eq]
      have hs₃ : Space s₃.mem r 0 0 (trampPte g) := hs₂.set_tramp htree₃ (Nat.zero_le _) hent₃
      have ho₃ := ho₂.turns ht₃
      refine wp.mono (mapTop_spec hs₃ ho₃ (Nat.zero_le _) (by omega) hs₃.frame htf (by decide)) ?_
      rintro x s₄ ⟨ht₄, htree₄, htakes₄, ⟨rfl, hent₄⟩ | ⟨rfl, hent₄⟩⟩
      · rw [if_pos (by decide), wp_bind]
        have hfree := htakes₄.free rfl
        have hlen₃ := htakes₃.length
        have hs₄ : Space s₄.mem r 0 0 (trampPte g) :=
          hs₃.set_tramp htree₄ (Nat.zero_le _) fun w _ => by
            rw [hent₄]
            split
            · next h => rw [h, hs₃.tramp]
            · rfl
        have ho₄ := ho₃.turns ht₄
        refine wp.mono (unmapTop_spec hs₄ ho₄ (Nat.zero_le _) (by omega)
          (hs₄.tramp ▸ leaf_trampPte)) ?_
        rintro _ s₅ ⟨ht₅, htree₅, hent₅⟩
        have hs₅ : Space s₅.mem r (npages 0) 0 0 := hs₄.set_tramp htree₅ (Nat.zero_le _) hent₅
        rw [wp_bind]
        refine (uvmfree_spec hs₅ (ho₄.turns ht₅)).mono fun _ s' ht' => ?_
        have hback := (((ht₂.trans ht₃).trans ht₄).trans ht₅).trans ht'
        exact ⟨.of_turns hback (by omega), .inl ⟨rfl, hback⟩⟩
      · rw [if_neg (by decide)]
        have hlen₃ := htakes₃.length
        have hlen₄ := htakes₄.length
        exact ⟨⟨(absurd · hr), by omega⟩, .inr ⟨hr, (ht₂.trans ht₃).trans ht₄,
          hs₃.set_frame htree₄ (Nat.zero_le _) hent₄⟩⟩

/-! ## Copying -/

theorem flags_lt (e : Nat) : PTE_FLAGS e < 1024 := Nat.and_lt_two_pow e (n := 10) (by decide)

theorem Leaf.flags_read (h : Leaf e) : (PTE_FLAGS e).testBit 1 = true := by
  have hr : e.testBit 1 = true := and_two_pow_ne_zero.mp h.readable
  rw [PTE_FLAGS, Nat.testBit_and, hr]
  decide

/-- The flags of an entry made from the flags of a valid one. -/
theorem flags_copy {pa : Nat} (h : Valid e) : PTE_FLAGS (PA2PTE pa ||| PTE_FLAGS e ||| PTE_V) =
    PTE_FLAGS e := by
  have hor : PTE_FLAGS e ||| PTE_V = PTE_FLAGS e := by
    apply Nat.eq_of_testBit_eq
    intro i
    rw [Nat.testBit_or, PTE_V, Nat.one_shiftLeft, Nat.testBit_two_pow]
    by_cases hi : 0 = i
    · subst hi
      have h0 : (PTE_FLAGS e).testBit 0 = true := by
        rw [PTE_FLAGS, Nat.testBit_and, valid_iff.mp h]
        decide
      rw [h0, Bool.true_or]
    · rw [decide_eq_false hi, Bool.or_false]
  rw [Nat.lor_assoc, hor, PTE_FLAGS_pte (flags_lt e)]

/-- Page `v` of the address space `c` in the memory `m'` is a copy of that of `p` in
the memory `m`. -/
structure PageCopy (m : Nat → Page) (p : Nat) (m' : Nat → Page) (c v : Nat) : Prop where
  flags : PTE_FLAGS (entry m' c v) = PTE_FLAGS (entry m p v)
  page : m' (PTE2PA (entry m' c v)) = m (PTE2PA (entry m p v))

theorem PageCopy.kept (h : PageCopy m p m₁ c v) (hk : Kept m₁ m₂ c np) (hv : v < np) :
    PageCopy m p m₂ c v where
  flags := by rw [hk.entry v hv]; exact h.flags
  page := by rw [hk.entry v hv, hk.page v hv]; exact h.page

theorem PageCopy.of_kept (hk : Kept m m₁ p np) (h : PageCopy m₁ p m₂ c v) (hv : v < np) :
    PageCopy m p m₂ c v where
  flags := by rw [← hk.entry v hv]; exact h.flags
  page := by rw [← hk.page v hv, ← hk.entry v hv]; exact h.page

/-- The pages of the address space `p` from `k` on are copied to `c`, or all
pages of `c` are freed. -/
theorem uvmcopyLoop_spec {k n : Nat} (hp : Space s.mem p (k + n) fr tr)
    (hc : Space s.mem c k fr' tr')
    (ho : Owned g.IsPage s (space s.mem c k ++ space s.mem p (k + n))) :
    wp (uvmcopyLoop g p c n (k * PGSIZE)) (fun r s' =>
      r = 0 ∧ Space s'.mem c (k + n) fr' tr' ∧
          Turns s s' (space s.mem c k) (space s'.mem c (k + n)) ∧ Kept s.mem s'.mem c k ∧
          (∀ v, k ≤ v → v < k + n → PageCopy s.mem p s'.mem c v) ∨
        r = -1 ∧ s.frees.length < 3 * n ∧ Space s'.mem c 0 fr' tr' ∧
          Turns s s' (space s.mem c k) (space s'.mem c 0)) E s := by
  induction n generalizing k s with
  | zero => exact .inl ⟨rfl, hc, ho.left.refl, .refl _ _ _, fun v h1 h2 => by omega⟩
  | succ n ih =>
      have hle : k + (n + 1) ≤ ramPages := np_le ho.right
      have hlt := ramPages_lt
      have hfp : framePage = 2 ^ 26 - 2 := rfl
      have hleaf := hp.user k (by omega)
      obtain ⟨q, i, hslot, he⟩ := exists_slot hleaf.valid
      -- all pages of the copy are freed
      have hundo : ∀ s₁ : Machine, Space s₁.mem c k fr' tr' →
          Turns s s₁ (space s.mem c k) (space s₁.mem c k) →
          wp (uvmunmap g c 0 (k * PGSIZE / PGSIZE) true) (fun _ s' => Space s'.mem c 0 fr' tr' ∧
            Turns s s' (space s.mem c k) (space s'.mem c 0)) E s₁ := by
        intro s₁ hs₁ ht₁
        rw [Nat.mul_div_cancel _ (by decide), ← Nat.zero_mul PGSIZE]
        have ho₁ := ho.left.turns ht₁
        rw [← Nat.zero_add k] at hs₁ ho₁
        refine (unmapUser_spec hs₁ ho₁).mono ?_
        rintro _ s' ⟨hs', ht', _⟩
        rw [Nat.zero_add] at ht'
        exact ⟨hs', ht₁.trans ht'⟩
      rw [uvmcopyLoop, wp_bind, wp_walk (page_lt_maxva (by omega)), hslot]
      rw [wp_bind, wp_readPte, he, if_neg hleaf.valid, wp_bind]
      refine (kalloc_spec ho).mono ?_
      rintro r s₁ (⟨rfl, rfl, hnone⟩ | ⟨hr, h₁⟩)
      · rw [if_pos rfl, wp_bind]
        exact (hundo _ hc ho.left.refl).mono fun _ s' h' => .inr ⟨rfl, by omega, h'⟩
      · have hsrc : s₁.mem (PTE2PA (entry s.mem p k)) = s.mem (PTE2PA (entry s.mem p k)) :=
          h₁.mem_eq (C := space s.mem c k ++ space s.mem p (k + (n + 1))) ho
            (List.mem_append_right _ (List.mem_append_right _ (mem_targets (by omega))))
        rw [if_neg hr, wp_bind, wp_get, wp_bind, wp_setPage, wp_bind, hsrc]
        refine (addPage_spec hc ho.left h₁ (flags_lt _) hleaf.flags_read).mono ?_
        rintro x s₂ ⟨htakes, ⟨rfl, hs₂, ht₂, hk₂, hnew, hal, hpg⟩ | ⟨rfl, hs₂, ht₂, _⟩⟩
        · have hcopy : PageCopy s.mem p s₂.mem c k := by
            refine ⟨by rw [hnew, flags_copy hleaf.valid], ?_⟩
            rw [hnew, PTE2PA_leaf hal (flags_lt _), hpg]
          rw [if_neg (by decide), succ_mul_pgsize]
          have hms : ∀ q ∈ space s.mem p (k + (n + 1)), s₂.mem q = s.mem q := fun q hq =>
            ht₂.mem_eq ho hq
          have hm : ∀ q ∈ tbl s.mem 2 p, s₂.mem q = s.mem q := fun q hq =>
            hms q (List.mem_append_left _ hq)
          have hkp : Kept s.mem s₂.mem p (k + (n + 1)) := .of_same hms
          have hsp : space s₂.mem p (k + (n + 1)) = space s.mem p (k + (n + 1)) := space_congr hm
          have hp₂ : Space s₂.mem p (k + (n + 1)) fr tr := hp.congr hm
          have ho₂ := ho.turns (ht₂.frame _)
          rw [← hsp] at ho₂
          have hk : k + (n + 1) = k + 1 + n := by omega
          rw [hk] at hp₂ ho₂ hkp ⊢
          refine (ih hp₂ hs₂ ho₂).mono ?_
          rintro r' s' (⟨rfl, hs', ht', hk', hpages⟩ | ⟨rfl, hlen, hs', ht'⟩)
          · refine .inl ⟨rfl, hs', ht₂.trans ht', hk₂.trans (hk'.mono (Nat.le_succ k)),
              fun v h1 h2 => ?_⟩
            rcases Nat.lt_or_eq_of_le h1 with h1 | rfl
            · exact .of_kept hkp (hpages v h1 h2) h2
            · exact hcopy.kept hk' (Nat.lt_succ_self _)
          · have := htakes.length
            exact .inr ⟨rfl, by omega, hs', ht₂.trans ht'⟩
        · rw [if_pos (by decide), wp_bind]
          have := htakes.free rfl
          refine (dropPage_spec hs₂ (ho.left.turns ht₂)).mono ?_
          rintro _ s₃ ⟨hs₃, ht₃, _⟩
          rw [wp_bind]
          exact (hundo _ hs₃ (ht₂.trans ht₃)).mono fun _ s' h' => .inr ⟨rfl, by omega, h'⟩

theorem uvmcopy_spec (hp : Space s.mem p (npages sz) fr tr) (hc : Space s.mem c 0 fr' tr')
    (ho : Owned g.IsPage s (space s.mem c 0 ++ space s.mem p (npages sz))) :
    wp (uvmcopy g p c sz) (fun r s' =>
      r = 0 ∧ Space s'.mem c (npages sz) fr' tr' ∧
          Turns s s' (space s.mem c 0) (space s'.mem c (npages sz)) ∧
          (∀ v < npages sz, PageCopy s.mem p s'.mem c v) ∨
        r = -1 ∧ s.frees.length < 3 * npages sz ∧ Space s'.mem c 0 fr' tr' ∧
          Turns s s' (space s.mem c 0) (space s'.mem c 0)) E s := by
  rw [← Nat.zero_add (npages sz)] at hp ho
  have h := uvmcopyLoop_spec (E := E) hp hc ho
  rw [Nat.zero_add, Nat.zero_mul] at h
  refine h.mono ?_
  rintro r s' (⟨hr, hs', ht', -, hpages⟩ | hfail)
  · exact .inl ⟨hr, hs', ht', fun v hv => hpages v (Nat.zero_le v) hv⟩
  · exact .inr hfail

end Xv6.Vm
