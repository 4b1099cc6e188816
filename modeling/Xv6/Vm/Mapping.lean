import Xv6.Vm.Owners

/-!
# A page table as a map

`pteAt` is the entry that `walk` finds for an address, so a page table is a map
from addresses to entries.  The pages of the tree and the free list are the only
things that have to be in order (`PageTree`); what the entries refer to is free.
Allocating the pages of a path leaves the map as it is, `mappages` sets it in the
pages of its range and nowhere else, and `uvmunmap` clears it there.
-/

namespace Xv6.Vm

open Hoare FreeList

/-- The entry that `walk(pagetable, va, 0)` finds, `0` if there is none. -/
def pteAt (s : Machine) (pagetable va : Nat) : Nat :=
  match walk pagetable va false s with
  | .ok (some (pt, i), _) => pteOf s.mem pt i
  | _ => 0

/-- The slot that `walk(pagetable, va, 0)` returns. -/
def walkSlot (s : Machine) (pagetable va : Nat) : Option (Nat × Nat) :=
  match walk pagetable va false s with
  | .ok (x, _) => x
  | .error _ => none

/-- The pages of a page table are a tree of distinct pages, none of them free. -/
structure PageTree (g : Layout) (s : Machine) (p : Nat) : Prop where
  tree : Tree s.mem 2 p
  owned : Owned g.IsPage s (tbl s.mem 2 p)

variable {g : Layout} {s : Machine} {E : Panic → Prop}
variable {p va v w n pa perm : Nat}

theorem walk_eq (h : va < MAXVA) : walk p va false s = .ok (slot s.mem va 2 p, s) := by
  have hw : wp (walk p va false) (fun x s' => x = slot s.mem va 2 p ∧ s' = s) (fun _ => False) s :=
    (wp_walk h).mpr ⟨rfl, rfl⟩
  cases hx : walk p va false s with
  | error e => exact ((wp_error hx).mp hw).elim
  | ok r =>
      obtain ⟨h1, h2⟩ := (wp_ok hx).mp hw
      rw [← h1, ← h2]

theorem pteAt_eq (h : va < MAXVA) : pteAt s p va = look s.mem 2 p va := by
  rw [pteAt, walk_eq h, look]
  cases slot s.mem va 2 p <;> rfl

theorem walkSlot_eq (h : va < MAXVA) : walkSlot s p va = slot s.mem va 2 p := by
  rw [walkSlot, walk_eq h]

theorem page_lt (h : va < MAXVA) : va / PGSIZE < 2 ^ 26 := by
  have h1 : MAXVA = 2 ^ 38 := rfl
  rw [PGSIZE]
  omega

/-- All addresses of a page have one entry. -/
theorem pteAt_entry (h : va < MAXVA) : pteAt s p va = entry s.mem p (va / PGSIZE) := by
  rw [pteAt_eq h, look_eq_entry, Nat.mod_eq_of_lt (lt_npte (page_lt h))]

/-! ## `walk` -/

theorem walk_spec (h : PageTree g s p) (hva : va < MAXVA) :
    wp (walk p va true) (fun r s' => PageTree g s' p ∧
      (∀ a < MAXVA, pteAt s' p a = pteAt s p a) ∧ (r = none ∨ r = walkSlot s' p va)) E s := by
  rw [walk, if_neg (Nat.not_le.mpr hva)]
  refine (walkFrom_spec h.owned h.tree).mono ?_
  rintro r s' ⟨hg, hs, -⟩
  refine ⟨⟨hg.tree, h.owned.turns hg.turns⟩, fun a ha => ?_, ?_⟩
  · rw [pteAt_eq ha, pteAt_eq ha, hg.look]
  · cases r with
    | none => exact .inl rfl
    | some x =>
        rw [walkSlot_eq hva, hs x rfl]
        exact .inr rfl

theorem walkSlot_inj (h : PageTree g s p) {va' : Nat} (hva : va < MAXVA) (hva' : va' < MAXVA)
    {x : Nat × Nat} (hx : walkSlot s p va = some x) (hx' : walkSlot s p va' = some x) :
    va / PGSIZE = va' / PGSIZE := by
  rw [walkSlot_eq hva] at hx
  rw [walkSlot_eq hva'] at hx'
  have h1 : MAXVA = 2 ^ 38 := rfl
  exact (samePath_iff (by omega) (by omega)).mp (slot_inj h.owned.nodup_left hx hx')

/-! ## `mappages` -/

/-- The loop of `mappages` sets the entries of `n + 1` pages.  It panics only if
one of them is mapped. -/
theorem mappagesLoop_spec (h : PageTree g s p) (hv : v + n < 2 ^ 26)
    (hpa : pa + n * PGSIZE < 2 ^ 64) (hperm : perm < 1024)
    (hE : (∃ w, v ≤ w ∧ w ≤ v + n ∧ Valid (entry s.mem p w)) → E .mapRemap) :
    wp (mappagesLoop p perm n (v * PGSIZE) pa) (fun r s' => PageTree g s' p ∧
      (r = 0 ∧ (∀ w < NPTE, entry s'.mem p w = if v ≤ w ∧ w ≤ v + n then
          PA2PTE (pa + (w - v) * PGSIZE) ||| perm ||| PTE_V else entry s.mem p w) ∨
        r = -1 ∧ ∀ w < NPTE, w < v ∨ v + n < w → entry s'.mem p w = entry s.mem p w)) E s := by
  induction n generalizing s v pa with
  | zero =>
      refine wp.mono (mapPage_spec h.owned h.tree hv
        (fun h' => hE ⟨v, Nat.le_refl v, Nat.le_refl v, h'⟩) (by omega) hperm) ?_
      rintro r s' ⟨ht, htree, -, hcase⟩
      refine ⟨⟨htree, h.owned.turns ht⟩, ?_⟩
      rcases hcase with ⟨rfl, hent⟩ | ⟨rfl, hent⟩
      · exact .inr ⟨rfl, fun w _ _ => hent w⟩
      · refine .inl ⟨rfl, fun w hw => ?_⟩
        rw [hent w hw]
        by_cases hwv : w = v
        · subst hwv
          rw [if_pos rfl, if_pos ⟨Nat.le_refl w, Nat.le_refl w⟩, Nat.sub_self, Nat.zero_mul,
            Nat.add_zero]
        · rw [if_neg hwv, if_neg (by omega)]
  | succ n ih =>
      have hp0 : PGSIZE ≤ (n + 1) * PGSIZE := Nat.le_mul_of_pos_left _ (Nat.succ_pos n)
      rw [mappagesLoop, wp_bind]
      refine wp.mono (mapPage_spec h.owned h.tree (by omega)
        (fun h' => hE ⟨v, Nat.le_refl v, Nat.le_add_right v _, h'⟩) (by omega) hperm) ?_
      rintro r s₁ ⟨ht, htree, -, hcase⟩
      have h₁ : PageTree g s₁ p := ⟨htree, h.owned.turns ht⟩
      rcases hcase with ⟨rfl, hent⟩ | ⟨rfl, hent⟩
      · rw [if_pos (by decide)]
        exact ⟨h₁, .inr ⟨rfl, fun w _ _ => hent w⟩⟩
      · rw [if_neg (by decide), succ_mul_pgsize]
        have hne : ∀ w < NPTE, w ≠ v → entry s₁.mem p w = entry s.mem p w := fun w hw hwv => by
          rw [hent w hw, if_neg hwv]
        refine wp.mono (ih h₁ (by omega) ?_ ?_) ?_
        · rw [Nat.succ_mul] at hpa
          omega
        · rintro ⟨w, h1, h2, hw⟩
          rw [hne w (lt_npte (by omega)) (by omega)] at hw
          exact hE ⟨w, by omega, by omega, hw⟩
        · rintro r s' ⟨h', hcase⟩
          refine ⟨h', ?_⟩
          rcases hcase with ⟨rfl, hent'⟩ | ⟨rfl, hent'⟩
          · refine .inl ⟨rfl, fun w hw => ?_⟩
            rw [hent' w hw]
            by_cases hwv : w = v
            · subst hwv
              rw [if_neg (by omega), if_pos (by omega), hent w hw, if_pos rfl, Nat.sub_self,
                Nat.zero_mul, Nat.add_zero]
            · rw [hne w hw hwv]
              by_cases hin : v + 1 ≤ w ∧ w ≤ v + 1 + n
              · have hsub : w - v = w - (v + 1) + 1 := by omega
                rw [if_pos hin, if_pos (by omega), hsub, Nat.succ_mul, Nat.add_assoc,
                  Nat.add_comm PGSIZE]
              · rw [if_neg hin, if_neg (by omega)]
          · exact .inr ⟨rfl, fun w hw hc => by rw [hent' w hw (by omega), hne w hw (by omega)]⟩

/-- The address and the flags of an entry. -/
def ptePair (e : Nat) : Nat × Nat := (PTE2PA e, PTE_FLAGS e)

theorem ptePair_pte (hp : pa % PGSIZE = 0) (hperm : perm < 1024) :
    ptePair (PA2PTE pa ||| perm ||| PTE_V) = (pa, perm ||| PTE_V) := by
  have hf : perm ||| PTE_V < 1024 := Nat.or_lt_two_pow (n := 10) hperm (by decide)
  rw [ptePair, Nat.lor_assoc, PTE2PA_pte hp hf, PTE_FLAGS_pte hf]

theorem add_mul_mod {a : Nat} (h : a % PGSIZE = 0) (i : Nat) : (a + i * PGSIZE) % PGSIZE = 0 := by
  rw [Nat.add_mul_mod_self_right, h]

theorem mappages_spec {size : Nat} (h : PageTree g s p) (hsize : 0 < size)
    (hva : va + size ≤ MAXVA) (hal : pa % PGSIZE = 0)
    (hpa : pa + (PGROUNDDOWN (va + size - 1) - PGROUNDDOWN va) < 2 ^ 64) (hperm : perm < 1024)
    (hE : (∃ a < MAXVA, PGROUNDDOWN va ≤ a ∧ a ≤ PGROUNDDOWN (va + size - 1) ∧
      Valid (pteAt s p a)) → E .mapRemap) :
    wp (mappages p va size pa perm) (fun r s' => PageTree g s' p ∧ (r = 0 ∨ r = -1) ∧
      (r = 0 →
        (∀ i, PGROUNDDOWN va + i * PGSIZE ≤ PGROUNDDOWN (va + size - 1) →
          ptePair (pteAt s' p (PGROUNDDOWN va + i * PGSIZE)) =
            (pa + i * PGSIZE, perm ||| PTE_V)) ∧
        ∀ a < MAXVA, a < PGROUNDDOWN va ∨ PGROUNDDOWN (va + size - 1) + PGSIZE ≤ a →
          pteAt s' p a = pteAt s p a)) E s := by
  have hlast : (va + size - 1) / PGSIZE < 2 ^ 26 := page_lt (by omega)
  obtain ⟨n, hn⟩ := Nat.exists_eq_add_of_le
    (Nat.div_le_div_right (c := PGSIZE) (show va ≤ va + size - 1 by omega))
  have hp0 : 0 < PGSIZE := by decide
  have hdiff : (va / PGSIZE + n) * PGSIZE - va / PGSIZE * PGSIZE = n * PGSIZE := by
    rw [Nat.add_mul, Nat.add_sub_cancel_left]
  have hmax : MAXVA = 2 ^ 26 * PGSIZE := by decide
  simp only [mappages, if_neg (Nat.ne_of_gt hsize), PGROUNDDOWN, hn, hdiff,
    Nat.mul_div_cancel n hp0] at hpa hE ⊢
  rw [hn] at hlast
  refine wp.mono (mappagesLoop_spec h hlast hpa hperm ?_) ?_
  · rintro ⟨w, h1, h2, hw⟩
    have hwm : w * PGSIZE < MAXVA := page_lt_maxva (by omega)
    refine hE ⟨w * PGSIZE, hwm, Nat.mul_le_mul_right _ h1, Nat.mul_le_mul_right _ h2, ?_⟩
    rwa [pteAt_entry hwm, Nat.mul_div_cancel w hp0]
  · rintro r s' ⟨h', ⟨rfl, hent⟩ | ⟨rfl, -⟩⟩
    · refine ⟨h', .inl rfl, fun _ => ⟨fun i hi => ?_, fun a ha hout => ?_⟩⟩
      · rw [← Nat.add_mul] at hi ⊢
        have hin : i ≤ n := by
          have := Nat.le_of_mul_le_mul_right hi hp0
          omega
        have hlt : va / PGSIZE + i < 2 ^ 26 := by omega
        rw [pteAt_entry (page_lt_maxva hlt), Nat.mul_div_cancel _ hp0, hent _ (lt_npte hlt),
          if_pos (by omega), Nat.add_sub_cancel_left]
        exact ptePair_pte (add_mul_mod hal i) hperm
      · have hnot : ¬ (va / PGSIZE ≤ a / PGSIZE ∧ a / PGSIZE ≤ va / PGSIZE + n) := by
          rw [succ_mul_pgsize] at hout
          rintro ⟨h1, h2⟩
          rcases hout with hlt | hge
          · exact absurd (Nat.div_lt_of_lt_mul (Nat.mul_comm _ PGSIZE ▸ hlt)) (Nat.not_lt.mpr h1)
          · exact absurd ((Nat.le_div_iff_mul_le hp0).mpr hge) (by omega)
        rw [pteAt_entry ha, pteAt_entry ha, hent _ (lt_npte (page_lt ha)), if_neg hnot]
    · exact ⟨h', .inr rfl, (by cases ·)⟩

/-! ## `uvmunmap` -/

/-- The pages that the entries of `n` pages from `va` on refer to. -/
def mappedPages (s : Machine) (p va n : Nat) : List Nat :=
  (List.range n).map fun i => PTE2PA (pteAt s p (va + i * PGSIZE))

theorem mappedPages_eq (hv : v + n ≤ 2 ^ 26) :
    mappedPages s p (v * PGSIZE) n = targets s.mem p v n := by
  rw [mappedPages, targets, List.range'_eq_map_range, List.map_map]
  apply List.map_congr_left
  intro i hi
  have hlt : v + i < 2 ^ 26 := by
    have := List.mem_range.mp hi
    omega
  rw [← Nat.add_mul, pteAt_entry (page_lt_maxva hlt), Nat.mul_div_cancel _ (by decide)]
  rfl

theorem unmap_spec {do_free : Bool} (h : PageTree g s p) (hal : va % PGSIZE = 0)
    (hva : va + n * PGSIZE ≤ MAXVA)
    (ho : Owned g.IsPage s (tbl s.mem 2 p ++ onlyIf do_free (mappedPages s p va n)))
    (hm : ∀ i < n, Mapped (pteAt s p (va + i * PGSIZE))) :
    wp (uvmunmap g p va n do_free) (fun _ s' => PageTree g s' p ∧
      (∀ a < MAXVA, pteAt s' p a = if va ≤ a ∧ a < va + n * PGSIZE then 0 else pteAt s p a) ∧
        s'.frees.Perm (onlyIf do_free (mappedPages s p va n) ++ s.frees)) E s := by
  obtain ⟨v, rfl⟩ := Nat.dvd_of_mod_eq_zero hal
  rw [Nat.mul_comm PGSIZE v] at hva ho hm ⊢
  have hp0 : 0 < PGSIZE := by decide
  have hv : v + n ≤ 2 ^ 26 := by
    have hmax : MAXVA = 2 ^ 26 * PGSIZE := by decide
    rw [← Nat.add_mul, hmax] at hva
    exact Nat.le_of_mul_le_mul_right hva hp0
  rw [mappedPages_eq hv] at ho ⊢
  refine wp.mono (uvmunmap_spec ho h.tree hv fun w h1 h2 => ?_) ?_
  · obtain ⟨i, rfl⟩ := Nat.exists_eq_add_of_le h1
    have hlt : v + i < 2 ^ 26 := by omega
    have hmi := hm i (by omega)
    rwa [← Nat.add_mul, pteAt_entry (page_lt_maxva hlt), Nat.mul_div_cancel _ hp0] at hmi
  · rintro _ s' ⟨ht, htbl, htree, hent⟩
    have ho' : Owned g.IsPage s' (tbl s'.mem 2 p) := by
      rw [htbl]
      exact ho.turns ht
    refine ⟨⟨htree, ho'⟩, fun a ha => ?_, ?_⟩
    · have hiff : (v ≤ a / PGSIZE ∧ a / PGSIZE < v + n) ↔
          (v * PGSIZE ≤ a ∧ a < v * PGSIZE + n * PGSIZE) := by
        rw [Nat.le_div_iff_mul_le hp0, Nat.div_lt_iff_lt_mul hp0, Nat.add_mul]
      rw [pteAt_entry ha, pteAt_entry ha, hent _ (lt_npte (page_lt ha))]
      simp only [hiff]
    · have hperm := ht.perm
      rw [List.append_assoc] at hperm
      exact (List.perm_append_left_iff _).mp hperm

/-! ## The map -/

theorem page_map (g : Layout) (s : Machine) (p : Nat) (h : PageTree g s p) :
    (∀ (E : Panic → Prop), ∀ va < MAXVA,
      wp (walk p va true) (fun r s' => PageTree g s' p ∧
        (∀ a < MAXVA, pteAt s' p a = pteAt s p a) ∧ (r = none ∨ r = walkSlot s' p va)) E s) ∧
    (∀ va va' x, va < MAXVA → va' < MAXVA → va % PGSIZE = 0 → va' % PGSIZE = 0 →
      walkSlot s p va = some x → walkSlot s p va' = some x → va = va') ∧
    (∀ va size pa perm, 0 < size → va + size ≤ MAXVA → pa % PGSIZE = 0 →
      pa + (PGROUNDDOWN (va + size - 1) - PGROUNDDOWN va) < 2 ^ 64 → perm < 1024 →
      wp (mappages p va size pa perm) (fun r s' => PageTree g s' p ∧ (r = 0 ∨ r = -1) ∧
        (r = 0 →
          (∀ i, PGROUNDDOWN va + i * PGSIZE ≤ PGROUNDDOWN (va + size - 1) →
            ptePair (pteAt s' p (PGROUNDDOWN va + i * PGSIZE)) =
              (pa + i * PGSIZE, perm ||| PTE_V)) ∧
          ∀ a < MAXVA, a < PGROUNDDOWN va ∨ PGROUNDDOWN (va + size - 1) + PGSIZE ≤ a →
            pteAt s' p a = pteAt s p a))
        (fun e => e = .mapRemap ∧ ∃ a < MAXVA, PGROUNDDOWN va ≤ a ∧
          a ≤ PGROUNDDOWN (va + size - 1) ∧ Valid (pteAt s p a)) s) ∧
    (∀ (E : Panic → Prop) (va n : Nat) (do_free : Bool), va % PGSIZE = 0 →
      va + n * PGSIZE ≤ MAXVA → (∀ i < n, Mapped (pteAt s p (va + i * PGSIZE))) →
      Owned g.IsPage s (tbl s.mem 2 p ++ onlyIf do_free (mappedPages s p va n)) →
      wp (uvmunmap g p va n do_free) (fun _ s' => PageTree g s' p ∧
        (∀ a < MAXVA, pteAt s' p a = if va ≤ a ∧ a < va + n * PGSIZE then 0 else pteAt s p a) ∧
          s'.frees.Perm (onlyIf do_free (mappedPages s p va n) ++ s.frees)) E s) := by
  refine ⟨fun E va hva => walk_spec h hva, fun va va' x h1 h2 h3 h4 hx hx' => ?_,
    fun va size pa perm h1 h2 h3 h4 h5 => mappages_spec h h1 h2 h3 h4 h5 fun hv => ⟨rfl, hv⟩,
    fun E va n do_free h1 h2 h3 h4 => unmap_spec h h1 h2 h4 h3⟩
  have hdiv := walkSlot_inj h h1 h2 hx hx'
  rw [← Nat.div_add_mod va PGSIZE, ← Nat.div_add_mod va' PGSIZE, hdiv, h3, h4]

/-- In the page table of the first process, two pages are mapped above its own, and its page is
unmapped and freed. -/
theorem page_map_boot : ∃ taken s₀ p s₁ s₂, bootZeroed smallLayout = .ok (taken, s₀) ∧
    PageTree smallLayout s₀.kern p ∧
    mappages p PGSIZE (2 * PGSIZE) KERNBASE PTE_R s₀.kern = .ok (0, s₁) ∧
    ptePair (pteAt s₁ p PGSIZE) = (KERNBASE, PTE_R ||| PTE_V) ∧
    ptePair (pteAt s₁ p (2 * PGSIZE)) = (KERNBASE + PGSIZE, PTE_R ||| PTE_V) ∧
    pteAt s₁ p 0 = pteAt s₀.kern p 0 ∧
    uvmunmap smallLayout p 0 1 true s₀.kern = .ok ((), s₂) ∧ pteAt s₂ p 0 = 0 ∧
    pteAt s₂ p TRAMPOLINE = pteAt s₀.kern p TRAMPOLINE ∧
    s₂.frees.Perm (PTE2PA (pteAt s₀.kern p 0) :: s₀.kern.frees) := by
  obtain ⟨taken, s₀, hb, ⟨pipes, hg⟩, hst, hsz, hrun⟩ : ∃ taken s₀,
      bootZeroed smallLayout = .ok (taken, s₀) ∧ Good smallLayout (fun _ _ => False) taken s₀ ∧
      (s₀.proc 0).state ≠ .unused ∧ (s₀.proc 0).sz = PGSIZE ∧
      wp (mappages (s₀.proc 0).pagetable PGSIZE (2 * PGSIZE) KERNBASE PTE_R) (fun r _ => r = 0)
        (fun _ => False) s₀.kern := exists_boot_of_check (by decide +kernel)
  have hpt := ((hg.procs 0).live hst).2
  have hspace := (hg.procs 0).space hpt
  have howned := hg.owned_space hpt
  rw [hsz] at hspace howned
  generalize (s₀.proc 0).pagetable = p at hspace howned hrun ⊢
  have hpages : Owned smallLayout.IsPage s₀.kern (tbl s₀.kern.mem 2 p ++ mappedPages s₀.kern p 0 1) := by
    rw [← Nat.zero_mul PGSIZE, mappedPages_eq (by decide)]
    exact howned
  have htree : PageTree smallLayout s₀.kern p := ⟨hspace.tree, howned.left⟩
  obtain ⟨-, -, hmap, hunmap⟩ := page_map smallLayout s₀.kern p htree
  obtain ⟨r, s₁, hok, ⟨-, -, hset⟩, hr0⟩ := ((hmap PGSIZE (2 * PGSIZE) KERNBASE PTE_R (by decide)
    (by decide) (by decide) (by decide) (by decide)).both hrun).imp (fun _ _ h => h) (fun _ h => h.2)
    |>.returns
  subst hr0
  obtain ⟨hin, hout⟩ := hset rfl
  have hmapped : ∀ i < 1, Mapped (pteAt s₀.kern p (0 + i * PGSIZE)) := fun i hi => by
    obtain rfl : i = 0 := by omega
    rw [pteAt_entry (by decide)]
    exact (hspace.user 0 (by decide)).mapped
  obtain ⟨_, s₂, hok₂, -, hzero, hfree⟩ := (hunmap (fun _ => False) 0 1 true (by decide) (by decide)
    hmapped hpages).returns
  refine ⟨taken, s₀, p, s₁, s₂, hb, htree, hok, hin 0 (by decide), hin 1 (by decide),
    hout 0 (by decide) (.inl (by decide)), hok₂, ?_, ?_, hfree⟩
  · rw [hzero 0 (by decide), if_pos (by decide)]
  · rw [hzero TRAMPOLINE (by decide), if_neg (by decide)]

end Xv6.Vm
