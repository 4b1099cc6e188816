import Xv6.Vm.Spaces

/-!
# Loading a program

`copyout` and `loadseg` write only user pages, whatever addresses they are given,
and the copies from user space write nothing.  Loading the segments of an
arbitrary file and making the stack keep an address space in shape.
-/

namespace Xv6.Vm

open Hoare FreeList

variable {g : Layout} {s s' : Machine} {A : List Nat} {E : Panic → Prop}
variable {m : Nat → Page} {p np fr tr v va sz e fuel offset k stackbase sp : Nat}
  {src dst : List UInt8} {ip : FileData} {argv ustack : List Nat}

/-! ## Writing user memory -/

/-- An entry that the user may not use. -/
def NoUser (e : Nat) : Prop := e &&& PTE_U = 0

theorem noUser_pte {pa f : Nat} (h : f.testBit 4 = false) : NoUser (PA2PTE pa ||| f ||| PTE_V) := by
  by_contra hc
  have ht := (and_two_pow_ne_zero (k := 4)).mp hc
  rw [Nat.lor_assoc, testBit_pte _ _ (by omega), Nat.testBit_or, h] at ht
  exact absurd ht (by decide)

theorem noUser_framePte (tf : Nat) : NoUser (framePte tf) := noUser_pte (by decide)

theorem noUser_trampPte : NoUser (trampPte g) := noUser_pte (by decide)

/-- `walkaddr` finds user pages only. -/
theorem Space.addr_mem (hs : Space m p np fr tr) (hfr : NoUser fr) (htr : NoUser tr)
    (h : addrOf m p va ≠ 0) : addrOf m p va ∈ targets m p 0 np := by
  obtain ⟨hlt, hv, hu, he⟩ := addrOf_ne_zero h
  have hlt' : va / PGSIZE < NPTE := by
    have h1 : MAXVA = 2 ^ 38 := rfl
    rw [PGSIZE, NPTE]
    omega
  rw [he]
  apply mem_targets
  by_contra hc
  by_cases h1 : va / PGSIZE = framePage
  · rw [h1, hs.frame] at hu
    exact hu hfr
  · by_cases h2 : va / PGSIZE = trampPage
    · rw [h2, hs.tramp] at hu
      exact hu htr
    · rw [hs.rest _ (Nat.le_of_not_lt hc) hlt' h1 h2] at hv
      exact not_valid_zero hv

/-- A run that writes user pages of an address space only. -/
def UserWrite (s s' : Machine) (p np : Nat) : Prop :=
  Turns s s' (targets s.mem p 0 np) (targets s.mem p 0 np)

theorem UserWrite.tbl_same (h : UserWrite s s' p np) (ho : Owned g.IsPage s (space s.mem p np)) :
    ∀ q ∈ tbl s.mem 2 p, s'.mem q = s.mem q :=
  fun _ hq => Turns.mem_eq h (ho.of_perm List.perm_append_comm) hq

theorem UserWrite.turns (h : UserWrite s s' p np) (ho : Owned g.IsPage s (space s.mem p np)) :
    Turns s s' (space s.mem p np) (space s'.mem p np) := by
  have hsp : space s'.mem p np = space s.mem p np := space_congr (h.tbl_same ho)
  rw [hsp]
  exact h.frame_left _

theorem UserWrite.refl (ho : Owned g.IsPage s (space s.mem p np)) : UserWrite s s p np :=
  ho.right.refl

theorem UserWrite.trans {s₁ : Machine} (h : UserWrite s s₁ p np)
    (ho : Owned g.IsPage s (space s.mem p np)) (h' : UserWrite s₁ s' p np) :
    UserWrite s s' p np := by
  have htg : targets s₁.mem p 0 np = targets s.mem p 0 np :=
    targets_congr fun _ _ _ => entry_congr (h.tbl_same ho)
  rw [UserWrite, htg] at h'
  exact Turns.trans h h'

/-- A store to a user page. -/
theorem UserWrite.set {a : Nat} (ho : Owned g.IsPage s (space s.mem p np))
    (ha : a ∈ targets s.mem p 0 np) (pg : Page) : UserWrite s (s.set a pg) p np :=
  ho.right.write ha pg

theorem copyoutLoop_spec (hs : Space s.mem p np fr tr) (hfr : NoUser fr) (htr : NoUser tr)
    (ho : Owned g.IsPage s (space s.mem p np)) :
    wp (copyoutLoop p fuel va src) (fun _ s' => UserWrite s s' p np) E s := by
  induction fuel generalizing s va src with
  | zero => cases src <;> exact .refl ho
  | succ fuel ih =>
      cases src with
      | nil => exact .refl ho
      | cons b bs =>
          rw [copyoutLoop, wp_bind, wp_walkaddr]
          · split
            · exact .refl ho
            · next h0 =>
                rw [wp_bind, wp_storeBytes]
                generalize Bytes.Region.write _ _ _ = pg
                have hw := UserWrite.set ho (hs.addr_mem hfr htr h0) pg
                have ho₁ := ho.turns (hw.turns ho)
                have hs₁ := hs.congr (hw.tbl_same ho)
                exact (ih hs₁ ho₁).mono fun _ s' h' => hw.trans ho h'
          · simp

/-- `copyout` writes user pages only. -/
theorem copyout_spec (hs : Space s.mem p np fr tr) (hfr : NoUser fr) (htr : NoUser tr)
    (ho : Owned g.IsPage s (space s.mem p np)) :
    wp (copyout p va src) (fun _ s' => UserWrite s s' p np) E s :=
  copyoutLoop_spec hs hfr htr ho

/-! ## Reading user memory -/

theorem copyinLoop_spec {len : Nat} :
    wp (copyinLoop p fuel va len dst) (fun _ s' => s' = s) E s := by
  induction fuel generalizing va len dst with
  | zero => cases len <;> rfl
  | succ fuel ih =>
      cases len with
      | zero => rfl
      | succ len =>
          rw [copyinLoop, wp_bind, wp_walkaddr]
          · split
            · rfl
            · rw [wp_bind, wp_get]
              exact ih
          · simp

theorem copyinstrLoop_spec {max : Nat} :
    wp (copyinstrLoop p fuel va max dst) (fun _ s' => s' = s) E s := by
  induction fuel generalizing va max dst with
  | zero => cases max <;> rfl
  | succ fuel ih =>
      cases max with
      | zero => rfl
      | succ max =>
          rw [copyinstrLoop, wp_bind, wp_walkaddr]
          · split
            · rfl
            · rw [wp_bind, wp_get]
              simp only
              split
              · rfl
              · exact ih
          · simp

theorem fetchaddr_spec : wp (fetchaddr p sz va) (fun _ s' => s' = s) E s := by
  rw [fetchaddr]
  split
  · rfl
  · rw [wp_bind]
    refine copyinLoop_spec.mono ?_
    rintro ⟨r, bytes⟩ s₁ rfl
    simp only
    split <;> rfl

/-! ## `uvmclear` -/

theorem pteOf_lt (m : Nat → Page) (q i : Nat) : pteOf m q i < 2 ^ 64 :=
  Bytes.Region.getLe_lt (m q) (8 * i) 8

theorem PTE2PA_clearUser (he : e < 2 ^ 64) : PTE2PA (e &&& clearUser) = PTE2PA e := by
  have hm : clearUser >>> 10 = 2 ^ 54 - 1 := by decide
  have hlt : e >>> 10 < 2 ^ 54 := by
    rw [Nat.shiftRight_eq_div_pow]
    omega
  rw [PTE2PA, PTE2PA, Nat.shiftRight_and_distrib, hm, Nat.and_two_pow_sub_one_of_lt_two_pow hlt]

theorem Leaf.clearUser (h : Leaf e) : Leaf (e &&& clearUser) where
  valid := by
    have hv := valid_iff.mp h.valid
    rw [valid_iff, Nat.testBit_and, hv]
    decide
  readable := by
    have hr : e.testBit 1 = true := and_two_pow_ne_zero.mp h.readable
    refine (and_two_pow_ne_zero (k := 1)).mpr ?_
    rw [Nat.testBit_and, hr]
    decide

/-- A user page is closed for the user. -/
theorem uvmclear_spec (hs : Space s.mem p np fr tr) (ho : Owned g.IsPage s (space s.mem p np))
    (hv : v < np) :
    wp (uvmclear p (v * PGSIZE)) (fun _ s' => Space s'.mem p np fr tr ∧
      Turns s s' (space s.mem p np) (space s'.mem p np) ∧
      (∀ w < np, w ≠ v → entry s'.mem p w = entry s.mem p w) ∧
      ∀ a ∉ tbl s.mem 2 p, s'.mem a = s.mem a) E s := by
  have hnp : np ≤ ramPages := np_le ho
  have hlt := ramPages_lt
  have hfp : framePage = 2 ^ 26 - 2 := rfl
  have htp : trampPage = 2 ^ 26 - 1 := rfl
  have hnpte : NPTE = 2 ^ 27 := rfl
  have hleaf := hs.user v hv
  obtain ⟨q, i, hslot, he⟩ := exists_slot hleaf.valid
  rw [uvmclear, wp_bind, wp_walk (page_lt_maxva (by omega)), hslot]
  rw [wp_bind, wp_readPte, he, wp_writePte]
  have hbound : entry s.mem p v < 2 ^ 64 := he ▸ pteOf_lt s.mem q i
  have hn := ho.left.nodup_left
  obtain ⟨htbl, htree, hent⟩ := clear_spec (e := entry s.mem p v &&& clearUser) hn hs.tree
    (fun _ _ => rfl) hslot (by omega) (Nat.and_lt_two_pow _ (by decide))
  have hne : ∀ w < NPTE, w ≠ v →
      entry (setPte s.mem q i (entry s.mem p v &&& clearUser)) p w = entry s.mem p w :=
    fun w hw hwv => by rw [hent w hw, if_neg hwv]
  have htg : targets (setPte s.mem q i (entry s.mem p v &&& clearUser)) p 0 np =
      targets s.mem p 0 np := targets_ext fun w _ h2 => by
    rw [hent w (by omega)]
    split
    · next h => rw [h, PTE2PA_clearUser hbound]
    · rfl
  have hsp : space (setPte s.mem q i (entry s.mem p v &&& clearUser)) p np = space s.mem p np := by
    rw [space, space, htbl, htg]
  rw [mem_set_pte]
  refine ⟨⟨htree, fun w hw => ?_, fun w h1 h2 h3 h4 => ?_, ?_, ?_⟩, ?_,
    fun w hw => hne w (by omega), fun a ha => ?_⟩
  · by_cases hwv : w = v
    · rw [hent w (by omega), if_pos hwv]
      exact hleaf.clearUser
    · rw [hne w (by omega) hwv]
      exact hs.user w hw
  · rw [hne w h2 (by omega)]
    exact hs.rest w h1 h2 h3 h4
  · rw [hne _ (by omega) (by omega), hs.frame]
  · rw [hne _ (by omega) (by omega), hs.tramp]
  · rw [hsp]
    exact ho.write (List.mem_append_left _ (slot_mem hslot).1) _
  · refine Function.update_of_ne ?_ _ _
    rintro rfl
    exact ha (slot_mem hslot).1

/-! ## Segments -/

/-- The user may use all user pages. -/
def AllUser (m : Nat → Page) (p np : Nat) : Prop := ∀ v < np, entry m p v &&& PTE_U ≠ 0

theorem AllUser.congr {m' : Nat → Page} (h : AllUser m p np) (hm : ∀ q ∈ tbl m 2 p, m' q = m q) :
    AllUser m' p np := fun v hv => by
  rw [entry_congr hm]
  exact h v hv

/-- `loadseg` finds every page of the segment. -/
theorem loadsegLoop_spec {n : Nat} (hs : Space s.mem p np fr tr) (hu : AllUser s.mem p np)
    (ho : Owned g.IsPage s (space s.mem p np)) (hv : v + (k + n) ≤ np) :
    wp (loadsegLoop p (v * PGSIZE) ip offset sz n (k * PGSIZE))
      (fun _ s' => UserWrite s s' p np) E s := by
  induction n generalizing k s with
  | zero => exact .refl ho
  | succ n ih =>
      have hnp : np ≤ ramPages := np_le ho
      have hlt := ramPages_lt
      have hfp : framePage = 2 ^ 26 - 2 := rfl
      have hmem : PTE2PA (entry s.mem p (v + k)) ∈ targets s.mem p 0 np := mem_targets (by omega)
      have hpage := ho.mem_range (List.mem_append_right _ hmem)
      rw [loadsegLoop, wp_bind, wp_walkaddr, ← Nat.add_mul,
        addrOf_page (by omega) (hs.user _ (by omega)).valid (hu _ (by omega)), if_neg hpage.ne_zero]
      simp only
      generalize (if sz - k * PGSIZE < PGSIZE then sz - k * PGSIZE else PGSIZE) = len
      rw [wp_bind, wp_storeBytes]
      generalize Bytes.Region.write _ _ _ = pg
      have hw := UserWrite.set ho hmem pg
      split
      · exact hw
      · rw [succ_mul_pgsize]
        have hm := hw.tbl_same ho
        have hs₁ : Space (s.set _ pg).mem p np fr tr := hs.congr hm
        refine (ih (k := k + 1) hs₁ (hu.congr hm) (ho.turns (hw.turns ho)) (by omega)).mono ?_
        exact fun _ s' h' => hw.trans ho h'

theorem loadseg_spec (hs : Space s.mem p np fr tr) (hu : AllUser s.mem p np)
    (ho : Owned g.IsPage s (space s.mem p np)) (hv : v + npages sz ≤ np) :
    wp (loadseg p (v * PGSIZE) ip offset sz) (fun _ s' => UserWrite s s' p np) E s := by
  have h : wp (loadsegLoop p (v * PGSIZE) ip offset sz (npages sz) (0 * PGSIZE)) _ E s :=
    loadsegLoop_spec hs hu ho (by rwa [Nat.zero_add])
  rw [Nat.zero_mul] at h
  exact h

theorem flags2perm_lt (flags : Nat) : flags2perm flags < 1024 := by
  unfold flags2perm
  split <;> split <;> decide

theorem npages_add_mul (v n : Nat) : npages (v * PGSIZE + n) = v + npages n := by
  rw [npages, npages, PGSIZE]
  omega

/-- The pages of a segment are below the end of the address space. -/
theorem segment_le {vaddr memsz filesz top : Nat} (hm : memsz < 2 ^ 64)
    (hfm : ¬ memsz < filesz) (hno : ¬ (vaddr + memsz) % 2 ^ 64 < vaddr) (hal : vaddr % PGSIZE = 0)
    (htop : (vaddr + memsz) % 2 ^ 64 ≤ top) :
    vaddr = vaddr / PGSIZE * PGSIZE ∧
      vaddr / PGSIZE + npages (filesz % 2 ^ 32) ≤ npages top := by
  have h1 : vaddr = vaddr / PGSIZE * PGSIZE := by
    rw [PGSIZE] at hal ⊢
    omega
  refine ⟨h1, ?_⟩
  rw [← npages_add_mul, ← h1]
  apply npages_mono
  have h2 : filesz % 2 ^ 32 ≤ filesz := Nat.mod_le _ _
  omega

theorem loadProgram_spec {off : Nat} (hs : Space s.mem p (npages sz) fr tr)
    (hu : AllUser s.mem p (npages sz)) (ho : Owned g.IsPage s (space s.mem p (npages sz))) :
    wp (loadProgram g p ip k off sz) (fun r s' => Space s'.mem p (npages r.2) fr tr ∧
      Turns s s' (space s.mem p (npages sz)) (space s'.mem p (npages r.2))) E s := by
  induction k generalizing s off sz with
  | zero => exact ⟨hs, ho.refl⟩
  | succ k ih =>
      rw [loadProgram]
      generalize readi ip off proghdrSize = bytes
      by_cases h1 : bytes.length ≠ proghdrSize
      · rw [if_pos h1]
        exact ⟨hs, ho.refl⟩
      rw [if_neg h1]
      generalize (ofBytes bytes : Proghdr) = ph
      by_cases h2 : Proghdr.type ph ≠ ELF_PROG_LOAD
      · rw [if_pos h2]
        exact ih hs hu ho
      by_cases h3 : Proghdr.memsz ph < Proghdr.filesz ph
      · rw [if_neg h2, if_pos h3]
        exact ⟨hs, ho.refl⟩
      by_cases h4 : (Proghdr.vaddr ph + Proghdr.memsz ph) % 2 ^ 64 < Proghdr.vaddr ph
      · rw [if_neg h2, if_neg h3, if_pos h4]
        exact ⟨hs, ho.refl⟩
      by_cases h5 : Proghdr.vaddr ph % PGSIZE ≠ 0
      · rw [if_neg h2, if_neg h3, if_neg h4, if_pos h5]
        exact ⟨hs, ho.refl⟩
      · rw [if_neg h2, if_neg h3, if_neg h4, if_neg h5, wp_bind]
        refine (uvmalloc_spec (flags2perm_lt _) hs ho).mono ?_
        rintro r s₁ ⟨np, hcase, _, hs₁, ht₁, hk₁, hpages⟩
        have ho₁ := ho.turns ht₁
        by_cases hr : r = 0
        · have hnp : np = npages sz := by
            rcases hcase with h | ⟨h, hn⟩
            · exact h.2.1
            · have h0 : sz = 0 := by omega
              rw [hn, hr, h0]
          rw [if_pos hr]
          exact ⟨hnp ▸ hs₁, hnp ▸ ht₁⟩
        · rw [if_neg hr, wp_bind]
          obtain ⟨hmax, rfl⟩ := hcase.resolve_left fun h => hr h.1
          have hall : AllUser s₁.mem p (npages r) := fun v hv => by
            by_cases hvn : v < npages sz
            · rw [hk₁.entry v hvn]
              exact hu v hvn
            · exact (hpages v (Nat.le_of_not_lt hvn) hv).user
          obtain ⟨hva, hle⟩ := segment_le (Bytes.Region.getLe_lt ph 40 8) h3 h4 (not_not.mp h5)
            (hmax ▸ Nat.le_max_right sz _)
          rw [hva]
          refine (loadseg_spec hs₁ hall ho₁ hle).mono ?_
          intro x s₂ hw
          have hm := hw.tbl_same ho₁
          have ht₂ := ht₁.trans (hw.turns ho₁)
          have hs₂ : Space s₂.mem p (npages r) fr tr := hs₁.congr hm
          split
          · exact ⟨hs₂, ht₂⟩
          · refine (ih hs₂ (hall.congr hm) (ho.turns ht₂)).mono ?_
            rintro r' s' ⟨hs', ht'⟩
            exact ⟨hs', ht₂.trans ht'⟩

/-! ## The stack -/

theorem pushArgs_spec (hs : Space s.mem p np fr tr) (hfr : NoUser fr) (htr : NoUser tr)
    (ho : Owned g.IsPage s (space s.mem p np)) :
    wp (pushArgs p stackbase argv sp ustack) (fun _ s' => UserWrite s s' p np) E s := by
  induction argv generalizing s sp ustack with
  | nil => exact .refl ho
  | cons arg argv ih =>
      rw [pushArgs]
      split
      · exact .refl ho
      · rw [wp_bind, wp_get]
        simp only
        generalize pushDown sp _ = sp'
        generalize cString (s.mem arg) ++ [0] = bytes
        split
        · exact .refl ho
        · rw [wp_bind]
          refine (copyout_spec hs hfr htr ho).mono ?_
          intro r s₁ hw
          split
          · exact hw
          · have hs₁ : Space s₁.mem p np fr tr := hs.congr (hw.tbl_same ho)
            exact (ih hs₁ (ho.turns (hw.turns ho))).mono fun _ s' h' => hw.trans ho h'

theorem pushPointers_spec (hs : Space s.mem p np fr tr) (hfr : NoUser fr) (htr : NoUser tr)
    (ho : Owned g.IsPage s (space s.mem p np)) :
    wp (pushPointers p stackbase sp ustack) (fun _ s' => UserWrite s s' p np) E s := by
  rw [pushPointers]
  generalize pushDown sp ((ustack.length + 1) * 8) = sp'
  generalize (ustack ++ [0]).flatMap (Bytes.toLe 8) = bytes
  split
  · exact .refl ho
  · rw [wp_bind]
    refine (copyout_spec hs hfr htr ho).mono ?_
    intro r s₁ hw
    split <;> exact hw

/-- The first part of `makeStack`: the guard page and the stack page.  It returns the end of the
stack page, or `0`. -/
def stackPages (g : Layout) (pagetable sz : Nat) : Kern Nat := do
  let sz1 ← uvmalloc g pagetable (PGROUNDUP sz) (PGROUNDUP sz + 2 * PGSIZE) PTE_W
  if sz1 = 0 then
    return 0
  else
    uvmclear pagetable (sz1 - 2 * PGSIZE)
    return sz1

/-- The second part of `makeStack`: the arguments. -/
def pushStack (pagetable top : Nat) (argv : List Nat) : Kern (Option Nat) := do
  match ← pushArgs pagetable (top - PGSIZE) argv top [] with
  | none => return none
  | some (sp, ustack) => pushPointers pagetable (top - PGSIZE) sp ustack

theorem makeStack_eq (g : Layout) (p sz : Nat) (argv : List Nat) :
    makeStack g p sz argv = do
      let top ← stackPages g p sz
      if top = 0 then
        return (none, PGROUNDUP sz)
      else
        let stack ← pushStack p top argv
        return (stack, top) := by
  simp only [makeStack, stackPages, pushStack, bind_assoc]
  congr 1
  funext sz1
  split
  next h => simp
  next h =>
    simp only [bind_assoc, pure_bind, if_neg h]
    congr 1
    funext _
    congr 1
    funext x
    cases x <;> simp

/-- The pages of the stack. -/
theorem stackPages_spec (hs : Space s.mem p (npages sz) fr tr)
    (ho : Owned g.IsPage s (space s.mem p (npages sz))) :
    wp (stackPages g p sz) (fun top s' =>
      top = 0 ∧ Space s'.mem p (npages sz) fr tr ∧
          Turns s s' (space s.mem p (npages sz)) (space s'.mem p (npages sz)) ∨
        top = (npages sz + 2) * PGSIZE ∧ Space s'.mem p (npages sz + 2) fr tr ∧
          Turns s s' (space s.mem p (npages sz)) (space s'.mem p (npages sz + 2)) ∧
          Accessible s'.mem p (npages sz + 1) ∧ Kept s.mem s'.mem p (npages sz)) E s := by
  have hnp : npages (npages sz * PGSIZE) = npages sz := npages_mul _
  have htop : npages sz * PGSIZE + 2 * PGSIZE = (npages sz + 2) * PGSIZE :=
    (Nat.add_mul _ _ _).symm
  rw [← hnp] at hs ho
  rw [stackPages, PGROUNDUP_eq, wp_bind, htop]
  refine (uvmalloc_spec (by decide) hs ho).mono ?_
  rintro r s₁ ⟨np, hcase, -, hs₁, ht₁, hk₁, hnew⟩
  rw [hnp] at hcase ht₁ hk₁ hnew
  rw [hnp] at ho
  have ho₁ := ho.turns ht₁
  rcases hcase with ⟨rfl, rfl, -⟩ | ⟨hr, rfl⟩
  · exact .inl ⟨rfl, hs₁, ht₁⟩
  · have hr' : r = (npages sz + 2) * PGSIZE := by
      rw [hr]
      exact Nat.max_eq_right (Nat.mul_le_mul_right _ (by omega))
    have hguard : r - 2 * PGSIZE = npages sz * PGSIZE := by
      rw [hr', Nat.add_mul, Nat.add_sub_cancel]
    have hr0 : r ≠ 0 := by
      rw [hr', PGSIZE]
      omega
    have hnr : npages r = npages sz + 2 := by rw [hr', npages_mul]
    rw [hnr] at hs₁ ht₁ ho₁ hnew
    rw [if_neg hr0, wp_bind, hguard]
    refine (uvmclear_spec hs₁ ho₁ (by omega)).mono ?_
    rintro _ s₂ ⟨hs₂, ht₂, hent, hmem⟩
    have hram : npages sz + 2 ≤ ramPages := np_le ho₁
    have hacc := (hnew (npages sz + 1) (by omega) (by omega)).accessible (by omega)
    refine .inr ⟨hr', hs₂, ht₁.trans ht₂, ?_, hk₁.trans ⟨fun v hv => ?_, fun v hv => ?_⟩⟩
    · rw [Accessible, hent _ (by omega) (by omega)]
      exact hacc
    · exact hent v (by omega) (by omega)
    · refine hmem _ fun hin => ho₁.ne hin (mem_targets (show v < npages sz + 2 by omega)) rfl

theorem pushStack_spec (hs : Space s.mem p np fr tr) (hfr : NoUser fr) (htr : NoUser tr)
    (ho : Owned g.IsPage s (space s.mem p np)) (top : Nat) :
    wp (pushStack p top argv) (fun _ s' => UserWrite s s' p np) E s := by
  rw [pushStack, wp_bind]
  generalize top - PGSIZE = stackbase
  refine (pushArgs_spec hs hfr htr ho).mono ?_
  intro x s₁ hw
  cases x with
  | none => exact hw
  | some x =>
      have hs₁ : Space s₁.mem p np fr tr := hs.congr (hw.tbl_same ho)
      exact (pushPointers_spec hs₁ hfr htr (ho.turns (hw.turns ho))).mono
        fun _ s' h' => hw.trans ho h'

theorem makeStack_spec (hs : Space s.mem p (npages sz) fr tr) (hfr : NoUser fr) (htr : NoUser tr)
    (ho : Owned g.IsPage s (space s.mem p (npages sz))) :
    wp (makeStack g p sz argv) (fun r s' => Space s'.mem p (npages r.2) fr tr ∧
      Turns s s' (space s.mem p (npages sz)) (space s'.mem p (npages r.2))) E s := by
  rw [makeStack_eq, wp_bind]
  refine (stackPages_spec hs ho).mono ?_
  rintro top s₁ (⟨rfl, hs₁, ht₁⟩ | ⟨rfl, hs₁, ht₁, -, -⟩)
  · rw [if_pos rfl, wp_pure, PGROUNDUP_eq, npages_mul]
    exact ⟨hs₁, ht₁⟩
  · have ho₁ := ho.turns ht₁
    rw [if_neg (by rw [PGSIZE]; omega), wp_bind]
    refine (pushStack_spec hs₁ hfr htr ho₁ _).mono ?_
    intro x s₂ hw
    rw [wp_pure, npages_mul]
    exact ⟨hs₁.congr (hw.tbl_same ho₁), ht₁.trans (hw.turns ho₁)⟩

/-! ## The arguments of `sys_exec` -/

/-- `sys_exec` takes a page for every argument and gives it back. -/
theorem fetchArgs_spec {uargv i : Nat} (ho : Owned g.IsPage s (argv ++ A)) :
    wp (fetchArgs p sz uargv k i argv) (fun r s' => Turns s s' argv r.2) E s := by
  induction k generalizing s i argv A with
  | zero => exact ho.left.refl
  | succ k ih =>
      rw [fetchArgs, wp_bind]
      refine fetchaddr_spec.mono ?_
      rintro x s₁ rfl
      cases x with
      | none => exact ho.left.refl
      | some uarg =>
          simp only
          split
          · exact ho.left.refl
          · rw [wp_bind]
            refine (kalloc_spec ho).mono ?_
            rintro r s₂ (⟨rfl, rfl, -⟩ | ⟨hr, h₂⟩)
            · rw [if_pos rfl]
              exact ho.left.refl
            · rw [if_neg hr, wp_bind]
              refine copyinstrLoop_spec.mono ?_
              rintro ⟨x, bytes⟩ s₃ rfl
              rw [wp_bind, wp_storeBytes]
              generalize Bytes.Region.write _ _ _ = pg
              have hperm : (argv ++ [r]).Perm (r :: argv) := List.perm_append_comm
              have hf := (fresh_page ho.left h₂ pg).1.of_perm (.refl _) hperm
              have ho' := ho.turns (hf.frame A)
              split
              · exact hf
              · exact (ih ho').mono fun _ s' h' => hf.trans h'

theorem freeArgs_spec (ho : Owned g.IsPage s (argv ++ A)) :
    wp (freeArgs g argv) (fun _ s' => Turns s s' argv []) E s := by
  induction argv generalizing s with
  | nil => exact ho.left.refl
  | cons a argv ih =>
      rw [freeArgs, wp_bind]
      refine (kfree_spec ho).mono ?_
      intro _ s₁ h₁
      have ht : Turns s s₁ (a :: argv) argv := h₁.frame argv
      exact (ih (ho.turns (ht.frame A))).mono fun _ s' h' => ht.trans h'

end Xv6.Vm
