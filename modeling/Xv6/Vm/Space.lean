import Xv6.Vm.Walk

/-!
# Address spaces

An address space has its first `np` pages mapped, the trapframe and trampoline
pages above them, and nothing else (`Space`).  It owns the pages of its tree and
the user pages (`space`).  The functions of `kernel/vm.c` that grow, shrink, copy
and free an address space keep this shape, whatever allocation fails.  Since all
user pages are different and physical memory is small, `np` stays far below the
trapframe page.
-/

namespace Xv6.Vm

open Hoare FreeList

/-- The page number of `TRAPFRAME`. -/
def framePage : Nat := 2 ^ 26 - 2
/-- The page number of `TRAMPOLINE`. -/
def trampPage : Nat := 2 ^ 26 - 1

theorem trapframe_eq : TRAPFRAME = framePage * PGSIZE := by decide
theorem trampoline_eq : TRAMPOLINE = trampPage * PGSIZE := by decide

/-- The address space of a page table: `np` user pages, and the entries for
`TRAPFRAME` and `TRAMPOLINE`. -/
structure Space (m : Nat → Page) (p np fr tr : Nat) : Prop where
  tree : Tree m 2 p
  user : ∀ v < np, Leaf (entry m p v)
  rest : ∀ v, np ≤ v → v < NPTE → v ≠ framePage → v ≠ trampPage → entry m p v = 0
  frame : entry m p framePage = fr
  tramp : entry m p trampPage = tr

/-- The pages that an address space owns. -/
def space (m : Nat → Page) (p np : Nat) : List Nat := tbl m 2 p ++ targets m p 0 np

variable {g : Layout} {s : Machine} {A : List Nat} {E : Panic → Prop}
variable {m m' : Nat → Page} {p np fr tr v w pa perm sz newsz n r k xperm : Nat} {s₁ : Machine}

theorem mem_targets (hv : v < np) : PTE2PA (entry m p v) ∈ targets m p 0 np :=
  List.mem_map.mpr ⟨v, List.mem_range'_1.mpr ⟨Nat.zero_le v, by omega⟩, rfl⟩

theorem space_congr (h : ∀ q ∈ tbl m 2 p, m' q = m q) : space m' p np = space m p np := by
  rw [space, space, tbl_congr h, targets_congr fun w _ _ => entry_congr h]

theorem Space.congr (hs : Space m p np fr tr) (h : ∀ q ∈ tbl m 2 p, m' q = m q) :
    Space m' p np fr tr where
  tree := hs.tree.congr h
  user := fun v hv => by rw [entry_congr h]; exact hs.user v hv
  rest := fun v h1 h2 h3 h4 => by rw [entry_congr h]; exact hs.rest v h1 h2 h3 h4
  frame := by rw [entry_congr h]; exact hs.frame
  tramp := by rw [entry_congr h]; exact hs.tramp

/-- The first `np` pages have the same entries and contents in both memories. -/
structure Kept (m m' : Nat → Page) (p np : Nat) : Prop where
  entry : ∀ v < np, entry m' p v = entry m p v
  page : ∀ v < np, m' (PTE2PA (Vm.entry m p v)) = m (PTE2PA (Vm.entry m p v))

theorem Kept.refl (m : Nat → Page) (p np : Nat) : Kept m m p np :=
  ⟨fun _ _ => rfl, fun _ _ => rfl⟩

theorem Kept.trans {m'' : Nat → Page} (h : Kept m m' p np) (h' : Kept m' m'' p np) :
    Kept m m'' p np where
  entry := fun v hv => (h'.entry v hv).trans (h.entry v hv)
  page := fun v hv => by rw [← h.page v hv, ← h.entry v hv, h'.page v hv]

theorem Kept.mono {np' : Nat} (h : Kept m m' p np) (hle : np' ≤ np) : Kept m m' p np' where
  entry := fun v hv => h.entry v (Nat.lt_of_lt_of_le hv hle)
  page := fun v hv => h.page v (Nat.lt_of_lt_of_le hv hle)

/-- Memory that agrees on the pages of an address space keeps it. -/
theorem Kept.of_same (h : ∀ q ∈ space m p np, m' q = m q) : Kept m m' p np where
  entry := fun _ _ => entry_congr fun q hq => h q (List.mem_append_left _ hq)
  page := fun _ hv => h _ (List.mem_append_right _ (mem_targets hv))

/-- A page of zeroes that is mapped with the flags `perm`. -/
structure NewPage (m : Nat → Page) (p v perm : Nat) : Prop where
  entry : ∃ pa, pa % PGSIZE = 0 ∧ entry m p v = PA2PTE pa ||| perm ||| PTE_V
  zero : m (PTE2PA (Vm.entry m p v)) = Page.fill 0

theorem NewPage.kept (h : NewPage m p v perm) (hk : Kept m m' p np) (hv : v < np) :
    NewPage m' p v perm where
  entry := by rw [hk.entry v hv]; exact h.entry
  zero := by rw [hk.entry v hv, hk.page v hv]; exact h.zero

/-! ## There are few pages -/

/-- The number of pages of RAM. -/
def ramPages : Nat := (PHYSTOP - KERNBASE) / PGSIZE

theorem length_le_ramPages {l : List Nat} (hn : l.Nodup) (h : ∀ a ∈ l, g.IsPage a) :
    l.length ≤ ramPages := by
  have hsub : l ⊆ (List.range ramPages).map fun i => KERNBASE + i * PGSIZE := by
    intro a ha
    obtain ⟨h1, h2, h3⟩ := h a ha
    have hk := g.kernbase_le
    have e1 : KERNBASE = 0x80000000 := rfl
    have e2 : PHYSTOP = 0x88000000 := rfl
    have e3 : ramPages = 32768 := rfl
    rw [PGSIZE] at h1 ⊢
    refine List.mem_map.mpr ⟨(a - KERNBASE) / 4096, List.mem_range.mpr ?_, ?_⟩ <;> omega
  have hle := (List.subperm_of_subset hn hsub).length_le
  simpa using hle

theorem length_targets : (targets m p v n).length = n := by
  simp [targets]

/-- User memory ends far below the trapframe. -/
theorem np_le (ho : Owned g.IsPage s (space m p np)) : np ≤ ramPages := by
  have hn := (List.nodup_append.mp ho.nodup_left).2.1
  have hle := length_le_ramPages hn fun a ha => ho.mem_range (List.mem_append_right _ ha)
  rwa [length_targets] at hle

theorem ramPages_lt : ramPages + 1 < framePage := by decide

/-! ## Rounding -/

/-- The number of pages of a size. -/
def npages (sz : Nat) : Nat := (sz + PGSIZE - 1) / PGSIZE

theorem PGROUNDUP_eq (sz : Nat) : PGROUNDUP sz = npages sz * PGSIZE := rfl

theorem npages_mul (v : Nat) : npages (v * PGSIZE) = v := by
  rw [npages, PGSIZE]
  omega

theorem npages_mono {a b : Nat} (h : a ≤ b) : npages a ≤ npages b := by
  rw [npages, npages, PGSIZE]
  omega

/-! ## Mapping one more page -/

theorem targets_concat : targets m p 0 (n + 1) = targets m p 0 n ++ [PTE2PA (entry m p n)] := by
  rw [targets, List.range'_concat, List.map_append, targets]
  simp

theorem leaf_pte (hr : perm.testBit 1 = true) : Leaf (PA2PTE pa ||| perm ||| PTE_V) where
  valid := by
    rw [valid_iff, Nat.testBit_or]
    simp [PTE_V]
  readable := by
    rw [PTE_R, Nat.one_shiftLeft, and_two_pow_ne_zero, Nat.testBit_or, Nat.testBit_or, hr]
    simp

theorem PTE2PA_leaf (hp : pa % PGSIZE = 0) (hperm : perm < 1024) :
    PTE2PA (PA2PTE pa ||| perm ||| PTE_V) = pa := by
  rw [Nat.lor_assoc]
  exact PTE2PA_pte hp (Nat.or_lt_two_pow (n := 10) hperm (by decide))

/-- A page `r` is mapped after the user pages, or there is no page for the tree. -/
theorem mapUser_spec (hs : Space s.mem p np fr tr) (ho : Owned g.IsPage s (r :: space s.mem p np))
    (hperm : perm < 1024) (hr : perm.testBit 1 = true) :
    wp (mappages p (np * PGSIZE) PGSIZE r perm) (fun x s' => Takes 2 (x = -1) s s' ∧
      (x = 0 ∧ Space s'.mem p (np + 1) fr tr ∧
          Turns s s' (r :: space s.mem p np) (space s'.mem p (np + 1)) ∧
          Kept s.mem s'.mem p np ∧ entry s'.mem p np = PA2PTE r ||| perm ||| PTE_V ∧
          s'.mem r = s.mem r ∨
        x = -1 ∧ Space s'.mem p np fr tr ∧
          Turns s s' (r :: space s.mem p np) (r :: space s'.mem p np) ∧
          Kept s.mem s'.mem p np)) E s := by
  have hpage : g.IsPage r := ho.mem_range List.mem_cons_self
  have hperm1 : (r :: space s.mem p np).Perm
      (tbl s.mem 2 p ++ (r :: targets s.mem p 0 np)) := List.perm_middle.symm
  have ho1 := ho.of_perm hperm1.symm
  have hnp : np ≤ ramPages := np_le (ho.of_perm (List.perm_append_singleton r _)).left
  have hlt := ramPages_lt
  have hfp : framePage = 2 ^ 26 - 2 := rfl
  have htp : trampPage = 2 ^ 26 - 1 := rfl
  have hnpte : NPTE = 2 ^ 27 := rfl
  have h0 : ¬ Valid (entry s.mem p np) := by
    rw [hs.rest np (Nat.le_refl _) (by omega) (by omega) (by omega)]
    exact not_valid_zero
  rw [mappages_page]
  refine (mapPage_spec ho1.left hs.tree (by omega) (absurd · h0) (lt_of_lt_phystop hpage.2.2) hperm).mono ?_
  rintro x s' ⟨ht, htree, htakes, hcase⟩
  refine ⟨htakes, ?_⟩
  have hpg : ∀ a ∈ r :: targets s.mem p 0 np, s'.mem a = s.mem a := fun a ha => ht.mem_eq ho1 ha
  have hup : ∀ v < np, s'.mem (PTE2PA (entry s.mem p v)) = s.mem (PTE2PA (entry s.mem p v)) :=
    fun v hv => hpg _ (List.mem_cons_of_mem _ (mem_targets hv))
  rcases hcase with ⟨rfl, hent⟩ | ⟨rfl, hent⟩
  · have htg : targets s'.mem p 0 np = targets s.mem p 0 np := targets_congr fun w _ _ => hent w
    refine .inr ⟨rfl, ⟨htree, ?_, ?_, ?_, ?_⟩, ?_, fun v _ => hent v, hup⟩
    · exact fun v hv => by rw [hent]; exact hs.user v hv
    · exact fun v h1 h2 h3 h4 => by rw [hent]; exact hs.rest v h1 h2 h3 h4
    · rw [hent, hs.frame]
    · rw [hent, hs.tramp]
    · have hsp : space s'.mem p np = tbl s'.mem 2 p ++ targets s.mem p 0 np := by rw [space, htg]
      rw [hsp]
      exact (ht.frame _).of_perm hperm1 List.perm_middle.symm
  · have hne : ∀ v, v < NPTE → v ≠ np → entry s'.mem p v = entry s.mem p v := fun v hv hvn => by
      rw [hent v hv, if_neg hvn]
    have hnew : entry s'.mem p np = PA2PTE r ||| perm ||| PTE_V := by
      rw [hent np (by omega), if_pos rfl]
    have htg : targets s'.mem p 0 np = targets s.mem p 0 np :=
      targets_congr fun w _ h2 => hne w (by omega) (by omega)
    refine .inl ⟨rfl, ⟨htree, ?_, ?_, ?_, ?_⟩, ?_,
      ⟨fun v hv => hne v (by omega) (by omega), hup⟩, hnew, hpg r List.mem_cons_self⟩
    · intro v hv
      rcases Nat.lt_or_eq_of_le (Nat.le_of_lt_succ hv) with hv | rfl
      · rw [hne v (by omega) (by omega)]
        exact hs.user v hv
      · rw [hnew]
        exact leaf_pte hr
    · intro v h1 h2 h3 h4
      rw [hne v h2 (by omega)]
      exact hs.rest v (by omega) h2 h3 h4
    · rw [hne _ (by omega) (by omega), hs.frame]
    · rw [hne _ (by omega) (by omega), hs.tramp]
    · have hsp : space s'.mem p (np + 1) = tbl s'.mem 2 p ++ (targets s.mem p 0 np ++ [r]) := by
        rw [space, targets_concat, htg, hnew, PTE2PA_leaf hpage.1 hperm]
      rw [hsp]
      refine (ht.frame _).of_perm hperm1 ?_
      exact (List.perm_append_singleton r (targets s.mem p 0 np)).append_left _

/-- The same for a page that was just allocated and filled. -/
theorem addPage_spec {pg : Page} (hs : Space s.mem p np fr tr)
    (ho : Owned g.IsPage s (space s.mem p np)) (h₁ : Turns s s₁ [] [r]) (hperm : perm < 1024)
    (hr : perm.testBit 1 = true) :
    wp (mappages p (np * PGSIZE) PGSIZE r perm) (fun x s' => Takes 3 (x = -1) s s' ∧
      (x = 0 ∧ Space s'.mem p (np + 1) fr tr ∧
          Turns s s' (space s.mem p np) (space s'.mem p (np + 1)) ∧
          Kept s.mem s'.mem p np ∧ entry s'.mem p np = PA2PTE r ||| perm ||| PTE_V ∧
          r % PGSIZE = 0 ∧ s'.mem r = pg ∨
        x = -1 ∧ Space s'.mem p np fr tr ∧
          Turns s s' (space s.mem p np) (r :: space s'.mem p np) ∧
          Kept s.mem s'.mem p np)) E (s₁.set r pg) := by
  obtain ⟨ht, hm⟩ := fresh_page ho h₁ pg
  have hself : (s₁.set r pg).mem r = pg := Function.update_self _ _ _
  generalize s₁.set r pg = s₂ at ht hm hself ⊢
  have hkept : Kept s.mem s₂.mem p np := .of_same fun q hq => (hm q hq).2
  have hmt : ∀ q ∈ tbl s.mem 2 p, s₂.mem q = s.mem q := fun q hq =>
    (hm q (List.mem_append_left _ hq)).2
  have hsp : space s₂.mem p np = space s.mem p np := space_congr hmt
  have hs₂ : Space s₂.mem p np fr tr := hs.congr hmt
  replace ht : Turns s s₂ (space s.mem p np) (r :: space s₂.mem p np) := by rwa [hsp]
  have hal : r % PGSIZE = 0 := ((ho.turns ht).mem_range List.mem_cons_self).1
  have hlen := ht.length
  rw [List.length_cons, hsp] at hlen
  refine (mapUser_spec hs₂ (ho.turns ht) hperm hr).mono ?_
  rintro x s' ⟨htakes, hcase⟩
  refine ⟨⟨fun hx => ?_, ?_⟩, ?_⟩
  · have := htakes.free hx
    omega
  · have := htakes.length
    omega
  rcases hcase with ⟨rfl, hs', ht', hk', hnew, hpg⟩ | ⟨rfl, hs', ht', hk'⟩
  · exact .inl ⟨rfl, hs', ht.trans ht', hkept.trans hk', hnew, hal, hpg.trans hself⟩
  · exact .inr ⟨rfl, hs', ht.trans ht', hkept.trans hk'⟩

/-- A page that could not be mapped is freed. -/
theorem dropPage_spec (hs : Space s.mem p np fr tr)
    (ho : Owned g.IsPage s (r :: space s.mem p np)) :
    wp (kfree g r) (fun _ s' => Space s'.mem p np fr tr ∧
      Turns s s' (r :: space s.mem p np) (space s'.mem p np) ∧ Kept s.mem s'.mem p np) E s := by
  refine (kfree_spec ho).mono ?_
  intro _ s' h
  have hms : ∀ q ∈ space s.mem p np, s'.mem q = s.mem q := fun q hq =>
    h.mem_eq (C := space s.mem p np) ho hq
  have hmt : ∀ q ∈ tbl s.mem 2 p, s'.mem q = s.mem q := fun q hq =>
    hms q (List.mem_append_left _ hq)
  have hsp : space s'.mem p np = space s.mem p np := space_congr hmt
  refine ⟨hs.congr hmt, ?_, .of_same hms⟩
  rw [hsp]
  exact h.frame _

/-! ## Shrinking -/

theorem targets_append : targets m p 0 (k + n) = targets m p 0 k ++ targets m p k n := by
  rw [targets, ← List.range'_append_1, List.map_append, Nat.zero_add]
  rfl

/-- The user pages from `k` on are unmapped and freed. -/
theorem unmapUser_spec (hs : Space s.mem p (k + n) fr tr)
    (ho : Owned g.IsPage s (space s.mem p (k + n))) :
    wp (uvmunmap g p (k * PGSIZE) n true) (fun _ s' =>
      Space s'.mem p k fr tr ∧ Turns s s' (space s.mem p (k + n)) (space s'.mem p k) ∧
        Kept s.mem s'.mem p k) E s := by
  have hnp : k + n ≤ ramPages := np_le ho
  have hlt := ramPages_lt
  have hfp : framePage = 2 ^ 26 - 2 := rfl
  have htp : trampPage = 2 ^ 26 - 1 := rfl
  have hnpte : NPTE = 2 ^ 27 := rfl
  have hperm : (space s.mem p (k + n)).Perm
      (tbl s.mem 2 p ++ onlyIf true (targets s.mem p k n) ++ targets s.mem p 0 k) := by
    rw [space, targets_append, onlyIf_true, List.append_assoc]
    exact List.perm_append_comm.append_left _
  have ho' := ho.of_perm hperm.symm
  refine (uvmunmap_spec ho'.left hs.tree (by omega) fun w _ h2 => (hs.user w h2).mapped).mono ?_
  rintro _ s' ⟨ht, htbl, htree, hent⟩
  have hsame : ∀ v, v < NPTE → v < k ∨ k + n ≤ v → entry s'.mem p v = entry s.mem p v :=
    fun v hv hc => by rw [hent v hv, if_neg (by omega)]
  have hsp : space s'.mem p k = tbl s.mem 2 p ++ targets s.mem p 0 k := by
    rw [space, htbl, targets_congr fun w _ h2 => hsame w (by omega) (by omega)]
  have hkept : Kept s.mem s'.mem p k := by
    refine ⟨fun v hv => hsame v (by omega) (by omega), fun v hv => ?_⟩
    exact ht.mem_eq ho' (mem_targets hv)
  refine ⟨⟨htree, ?_, ?_, ?_, ?_⟩, ?_, hkept⟩
  · intro v hv
    rw [hsame v (by omega) (by omega)]
    exact hs.user v (by omega)
  · intro v h1 h2 h3 h4
    rw [hent v h2]
    split
    · rfl
    · exact hs.rest v (by omega) h2 h3 h4
  · rw [hsame _ (by omega) (by omega), hs.frame]
  · rw [hsame _ (by omega) (by omega), hs.tramp]
  · rw [hsp]
    exact (ht.frame _).of_perm hperm (.refl _)

theorem uvmdealloc_spec {oldsz : Nat} (hs : Space s.mem p (npages oldsz) fr tr)
    (ho : Owned g.IsPage s (space s.mem p (npages oldsz))) :
    wp (uvmdealloc g p oldsz newsz) (fun r s' =>
      r = min oldsz newsz ∧ Space s'.mem p (npages r) fr tr ∧
        Turns s s' (space s.mem p (npages oldsz)) (space s'.mem p (npages r)) ∧
        Kept s.mem s'.mem p (npages r)) E s := by
  rw [uvmdealloc]
  split
  · next h => exact ⟨(Nat.min_eq_left h).symm, hs, ho.refl, .refl _ _ _⟩
  · next h =>
      have hmin : min oldsz newsz = newsz := Nat.min_eq_right (by omega)
      rw [wp_bind, PGROUNDUP_eq, PGROUNDUP_eq]
      obtain ⟨n, hn⟩ := Nat.exists_eq_add_of_le (npages_mono (Nat.le_of_not_le h))
      rw [hn] at hs ho ⊢
      by_cases hc : npages newsz * PGSIZE < (npages newsz + n) * PGSIZE
      · have hdiv : ((npages newsz + n) * PGSIZE - npages newsz * PGSIZE) / PGSIZE = n := by
          rw [Nat.add_mul, Nat.add_sub_cancel_left, Nat.mul_div_cancel _ (by decide)]
        rw [wp_whenever_pos hc, hdiv]
        exact (unmapUser_spec hs ho).mono fun _ s' h' => ⟨hmin.symm, h'⟩
      · have h0 : n = 0 := by
          have hp : 0 < PGSIZE := by decide
          by_contra hne
          exact hc (Nat.mul_lt_mul_of_pos_right (by omega) hp)
        subst h0
        rw [wp_whenever_neg hc]
        exact ⟨hmin.symm, hs, ho.refl, .refl _ _ _⟩

/-! ## Growing -/

theorem userPerm_lt (hx : xperm < 1024) : PTE_R ||| PTE_U ||| xperm < 1024 :=
  Nat.or_lt_two_pow (n := 10) (by decide) hx

theorem userPerm_read (xperm : Nat) : (PTE_R ||| PTE_U ||| xperm).testBit 1 = true := by
  have h : (PTE_R ||| PTE_U).testBit 1 = true := by decide
  rw [Nat.testBit_or, h, Bool.true_or]

theorem userPerm_user (pa xperm : Nat) :
    (PA2PTE pa ||| (PTE_R ||| PTE_U ||| xperm) ||| PTE_V) &&& PTE_U ≠ 0 := by
  have h : PTE_U.testBit 4 = true := by decide
  refine (and_two_pow_ne_zero (k := 4)).mpr ?_
  simp only [Nat.testBit_or, h, Bool.or_true, Bool.true_or]

/-- The pages mapped since page `np` are freed again. -/
theorem undo_spec (hk : np ≤ k) (ho : Owned g.IsPage s (space s.mem p k))
    (hs₁ : Space s₁.mem p k fr tr) (ht₁ : Turns s s₁ (space s.mem p k) (space s₁.mem p k))
    (hk₁ : Kept s.mem s₁.mem p k) :
    wp (uvmdealloc g p (k * PGSIZE) (np * PGSIZE)) (fun _ s' =>
      Space s'.mem p np fr tr ∧ Turns s s' (space s.mem p k) (space s'.mem p np) ∧
        Kept s.mem s'.mem p np) E s₁ := by
  have hmin : min (k * PGSIZE) (np * PGSIZE) = np * PGSIZE :=
    Nat.min_eq_right (Nat.mul_le_mul_right _ hk)
  refine wp.mono (uvmdealloc_spec (by rwa [npages_mul]) (by rw [npages_mul]; exact ho.turns ht₁)) ?_
  rintro r s' ⟨rfl, hs', ht', hk'⟩
  rw [hmin, npages_mul] at hs' ht' hk'
  rw [npages_mul] at ht'
  exact ⟨hs', ht₁.trans ht', (hk₁.mono hk).trans hk'⟩

/-- The rounds of `uvmalloc` from page `k` on.  If no page can be had, the pages
mapped since page `np` are freed again.  A round takes three pages at most. -/
theorem uvmallocLoop_spec (hx : xperm < 1024) (hk : np ≤ k) (hs : Space s.mem p k fr tr)
    (ho : Owned g.IsPage s (space s.mem p k)) :
    wp (uvmallocLoop g p (np * PGSIZE) newsz xperm n (k * PGSIZE)) (fun r s' =>
      r = newsz ∧ Space s'.mem p (k + n) fr tr ∧
          Turns s s' (space s.mem p k) (space s'.mem p (k + n)) ∧ Kept s.mem s'.mem p k ∧
          (∀ v, k ≤ v → v < k + n → NewPage s'.mem p v (PTE_R ||| PTE_U ||| xperm)) ∨
        r = 0 ∧ s.frees.length < 3 * n ∧ Space s'.mem p np fr tr ∧
          Turns s s' (space s.mem p k) (space s'.mem p np) ∧ Kept s.mem s'.mem p np) E s := by
  induction n generalizing k s with
  | zero => exact .inl ⟨rfl, hs, ho.refl, .refl _ _ _, fun v h1 h2 => by omega⟩
  | succ n ih =>
      rw [uvmallocLoop, wp_bind]
      refine (kalloc_spec ho).mono ?_
      rintro r s₁ (⟨rfl, rfl, hnone⟩ | ⟨hr, h₁⟩)
      · rw [if_pos rfl, wp_bind]
        refine (undo_spec hk ho hs ho.refl (.refl _ _ _)).mono ?_
        exact fun _ s' h' => .inr ⟨rfl, by omega, h'⟩
      · rw [if_neg hr, wp_bind, wp_memset, wp_bind]
        refine (addPage_spec hs ho h₁ (userPerm_lt hx) (userPerm_read xperm)).mono ?_
        rintro x s₃ ⟨htakes, ⟨rfl, hs₃, ht₃, hk₃, hnew, hal, hzero⟩ | ⟨rfl, hs₃, ht₃, hk₃⟩⟩
        · have hpage : NewPage s₃.mem p k (PTE_R ||| PTE_U ||| xperm) := by
            refine ⟨⟨r, hal, hnew⟩, ?_⟩
            rw [hnew, PTE2PA_leaf hal (userPerm_lt hx), hzero]
          rw [if_neg (by decide), succ_mul_pgsize]
          refine (ih (Nat.le_succ_of_le hk) hs₃ (ho.turns ht₃)).mono ?_
          rintro r' s' (⟨rfl, hs', ht', hk', hpages⟩ | ⟨rfl, hlen, hs', ht', hk'⟩)
          · rw [Nat.succ_add_eq_add_succ] at hs' ht' hpages
            refine .inl ⟨rfl, hs', ht₃.trans ht', hk₃.trans (hk'.mono (Nat.le_succ k)),
              fun v h1 h2 => ?_⟩
            rcases Nat.lt_or_eq_of_le h1 with h1 | rfl
            · exact hpages v h1 h2
            · exact hpage.kept hk' (Nat.lt_succ_self _)
          · have := htakes.length
            exact .inr ⟨rfl, by omega, hs', ht₃.trans ht', (hk₃.mono hk).trans hk'⟩
        · rw [if_pos (by decide), wp_bind]
          have := htakes.free rfl
          refine (dropPage_spec hs₃ (ho.turns ht₃)).mono ?_
          rintro _ s₄ ⟨hs₄, ht₄, hk₄⟩
          rw [wp_bind]
          refine wp.mono (undo_spec hk ho hs₄ (ht₃.trans ht₄) (hk₃.trans hk₄)) ?_
          exact fun _ s' h' => .inr ⟨rfl, by omega, h'⟩

/-- `uvmalloc` maps pages of zeroes up to the new size, or leaves the address space
as it was. -/
theorem uvmalloc_spec (hx : xperm < 1024) (hs : Space s.mem p (npages sz) fr tr)
    (ho : Owned g.IsPage s (space s.mem p (npages sz))) :
    wp (uvmalloc g p sz newsz xperm) (fun r s' => ∃ np, (r = 0 ∧ np = npages sz ∧
          s.frees.length < 3 * (npages newsz - npages sz) ∨
        r = max sz newsz ∧ np = npages r) ∧ npages sz ≤ np ∧ Space s'.mem p np fr tr ∧
        Turns s s' (space s.mem p (npages sz)) (space s'.mem p np) ∧
        Kept s.mem s'.mem p (npages sz) ∧
        ∀ v, npages sz ≤ v → v < np → NewPage s'.mem p v (PTE_R ||| PTE_U ||| xperm)) E s := by
  rw [uvmalloc]
  split
  · next h =>
      refine ⟨npages sz, .inr ⟨(Nat.max_eq_left (Nat.le_of_lt h)).symm, rfl⟩, Nat.le_refl _, hs,
        ho.refl, .refl _ _ _, fun v h1 h2 => by omega⟩
  · next h =>
      have hle : sz ≤ newsz := Nat.le_of_not_lt h
      have hmono := npages_mono hle
      have hn : npages sz + (newsz - npages sz * PGSIZE + PGSIZE - 1) / PGSIZE = npages newsz := by
        rw [npages, npages, PGSIZE] at hmono ⊢
        omega
      simp only [PGROUNDUP_eq]
      refine (uvmallocLoop_spec hx (Nat.le_refl _) hs ho).mono ?_
      rw [hn]
      rintro r s' (⟨rfl, hs', ht', hk', hpages⟩ | ⟨rfl, hlen, hs', ht', hk'⟩)
      · exact ⟨_, .inr ⟨(Nat.max_eq_right hle).symm, rfl⟩, hmono, hs', ht', hk', hpages⟩
      · exact ⟨_, .inl ⟨rfl, rfl, by omega⟩, Nat.le_refl _, hs', ht', hk',
          fun v h1 h2 => by omega⟩

/-! ## The user's pages -/

theorem NewPage.user (h : NewPage m p v (PTE_R ||| PTE_U ||| xperm)) :
    Vm.entry m p v &&& PTE_U ≠ 0 := by
  obtain ⟨pa, -, he⟩ := h.entry
  rw [he]
  exact userPerm_user pa xperm

/-- A page that the user may use. -/
def Accessible (m : Nat → Page) (p v : Nat) : Prop :=
  v * PGSIZE < MAXVA ∧ Valid (entry m p v) ∧ entry m p v &&& PTE_U ≠ 0

instance (m : Nat → Page) (p v : Nat) : Decidable (Accessible m p v) :=
  inferInstanceAs (Decidable (_ ∧ _))

/-- The pages from `uvmalloc` are accessible. -/
theorem NewPage.accessible (h : NewPage m p v (PTE_R ||| PTE_U ||| xperm))
    (hv : v < ramPages) : Accessible m p v := by
  have hram := ramPages_lt
  have hframe : framePage = 2 ^ 26 - 2 := rfl
  obtain ⟨pa, -, he⟩ := h.entry
  have hbit : PTE_V.testBit 0 = true := by decide
  refine ⟨page_lt_maxva (by omega), ?_, h.user⟩
  rw [he, valid_iff, Nat.testBit_or, hbit, Bool.or_true]

end Xv6.Vm
