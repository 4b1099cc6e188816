import Xv6.Vm.Protection

/-!
# What `growproc` reports

`growproc` adds a signed number to the size of a process.  It keeps the bytes that
stay below the size and maps pages of zeroes, or leaves everything as it was.  But
the sum is computed in `uint64`: if it is negative, the number passed to
`uvmdealloc` is larger than the old size, `uvmdealloc` returns the old size, and
`growproc` reports success though nothing has been done.
-/

namespace Xv6.Vm

open Hoare FreeList

variable {n : Nat} {g : Layout} {safe : Fin n → Int → Prop} {s s' : Sys n}
variable {rest pipes : List Nat} {hand : List (Fin NFILE)} {p : Fin n} {r d : Int}
  {m m' : Nat → Page} {pt np a sz : Nat} {E : Panic → Prop}

/-- The size has changed by `d`, the bytes below both sizes are the same, and the
pages that are new are writable for the user and zero. -/
structure Grown (s s' : Sys n) (p : Fin n) (d : Int) : Prop where
  size : ((s'.proc p).sz : Int) = (s.proc p).sz + d
  table : (s'.proc p).pagetable = (s.proc p).pagetable
  bytes : ∀ a < min (s.proc p).sz (s'.proc p).sz,
    userByte s'.kern.mem (s.proc p).pagetable a = userByte s.kern.mem (s.proc p).pagetable a
  fresh : ∀ v, npages (s.proc p).sz ≤ v → v < npages (s'.proc p).sz →
    NewPage s'.kern.mem (s.proc p).pagetable v (PTE_R ||| PTE_U ||| PTE_W)

/-- The process and its mappings and bytes are as before. -/
structure Untouched (s s' : Sys n) (p : Fin n) : Prop where
  proc : s'.proc p = s.proc p
  entries : ∀ v < NPTE, entry s'.kern.mem (s.proc p).pagetable v =
    entry s.kern.mem (s.proc p).pagetable v
  bytes : ∀ a < npages (s.proc p).sz * PGSIZE,
    userByte s'.kern.mem (s.proc p).pagetable a = userByte s.kern.mem (s.proc p).pagetable a

/-- `growproc` does what it reports. -/
def DoesAsReported (s s' : Sys n) (p : Fin n) (d r : Int) : Prop :=
  r = 0 ∧ Grown s s' p d ∨ r = -1 ∧ Untouched s s' p

theorem Kept.userByte (h : Kept m m' pt np) (ha : a / PGSIZE < np) :
    userByte m' pt a = userByte m pt a := by
  rw [Vm.userByte, Vm.userByte, place, place, byteOf, byteOf, h.entry _ ha, h.page _ ha]

theorem div_lt_npages (h : a < sz) : a / PGSIZE < npages sz := by
  rw [npages, PGSIZE]
  omega

/-- Two address spaces of one shape with the same user pages have the same
entries. -/
theorem Kept.entries {fr tr v : Nat} (h : Kept m m' pt np) (hs : Space m pt np fr tr)
    (hs' : Space m' pt np fr tr) (hv : v < NPTE) :
    Vm.entry m' pt v = Vm.entry m pt v := by
  by_cases h1 : v < np
  · exact h.entry v h1
  · by_cases h2 : v = framePage
    · rw [h2, hs.frame, hs'.frame]
    · by_cases h3 : v = trampPage
      · rw [h3, hs.tramp, hs'.tramp]
      · rw [hs.rest v (Nat.le_of_not_lt h1) hv h2 h3, hs'.rest v (Nat.le_of_not_lt h1) hv h2 h3]

/-- Sizes of address spaces are small numbers. -/
theorem Inv.sz_lt (h : Inv g safe rest pipes hand s) (hp : (s.proc p).pagetable ≠ 0) :
    (s.proc p).sz ≤ 2 ^ 27 := by
  have hnp := h.np_le hp
  have hram : ramPages = 32768 := rfl
  rw [npages, PGSIZE] at hnp
  omega

theorem toNat_mod_of_nonneg (hsz : sz ≤ 2 ^ 27) (hd : d < 2 ^ 31) (h : 0 ≤ (sz : Int) + d) :
    (((sz : Int) + d) % 2 ^ 64).toNat = ((sz : Int) + d).toNat := by
  rw [Int.emod_eq_of_lt h (by omega)]

theorem toNat_mod_of_neg (hsz : sz ≤ 2 ^ 27) (hd : -(2 ^ 31) ≤ d) (h : (sz : Int) + d < 0) :
    sz ≤ (((sz : Int) + d) % 2 ^ 64).toNat := by
  omega

/-- If the new size is not negative, `growproc` does what it reports. -/
theorem growproc_reports (h : Inv g safe rest pipes hand s) (hp : (s.proc p).state ≠ .unused)
    (hd : d < 2 ^ 31) (h0 : 0 ≤ ((s.proc p).sz : Int) + d) :
    wp (growproc g p d) (fun r s' => DoesAsReported s s' p d r) E s := by
  have hpt := ((h.procs p).live hp).2
  have hs := (h.procs p).space hpt
  have ho := h.owned_space hpt
  have hnew := toNat_mod_of_nonneg (h.sz_lt hpt) hd h0
  rw [growproc, wp_bind, wp_get]
  simp only [hnew]
  by_cases hpos : 0 < d
  · rw [if_pos hpos, wp_bind, wp_onKern]
    refine (uvmalloc_spec (by decide) hs ho).mono ?_
    rintro r k ⟨np, hcase, hle, hs', ht, hk, hpages⟩
    by_cases hr : r = 0
    · have hnp : np = npages (s.proc p).sz := by
        rcases hcase with h1 | h1
        · exact h1.2.1
        · omega
      subst hnp
      rw [if_pos hr]
      exact .inr ⟨rfl, rfl, fun v hv => hk.entries hs hs' hv, fun a ha =>
        hk.userByte ((Nat.div_lt_iff_lt_mul (by decide)).mpr ha)⟩
    · obtain ⟨hmax, rfl⟩ := hcase.resolve_left fun h1 => hr h1.1
      rw [if_neg hr, wp_bind, wp_modifyProc, wp_pure]
      refine .inl ⟨rfl, ?_, ?_, fun a ha => ?_, fun v h1 h2 => ?_⟩
      · rw [setProc_proc]
        simp only
        omega
      · rw [setProc_proc]
        rfl
      · exact hk.userByte (div_lt_npages (Nat.lt_of_lt_of_le ha (Nat.min_le_left _ _)))
      · rw [setProc_proc] at h2
        exact hpages v h1 h2
  · by_cases hneg : d < 0
    · rw [if_neg hpos, if_pos hneg, wp_bind, wp_onKern]
      refine (uvmdealloc_spec hs ho).mono ?_
      rintro r k ⟨hr, hs', ht, hk⟩
      have hrn : r = (((s.proc p).sz : Int) + d).toNat := by omega
      rw [wp_bind, wp_modifyProc, wp_pure]
      refine .inl ⟨rfl, ?_, ?_, fun a ha => ?_, fun v h1 h2 => ?_⟩
      · rw [setProc_proc]
        simp only
        omega
      · rw [setProc_proc]
        rfl
      · rw [setProc_proc] at ha
        exact hk.userByte (div_lt_npages (Nat.lt_of_lt_of_le ha (Nat.min_le_right _ _)))
      · rw [setProc_proc] at h2
        have hmono : npages r ≤ npages (s.proc p).sz := npages_mono (by omega)
        exact absurd (Nat.lt_of_le_of_lt h1 h2) (Nat.not_lt.mpr hmono)
    · have hz : d = 0 := by omega
      rw [if_neg hpos, if_neg hneg, wp_pure]
      exact .inl ⟨rfl, by omega, rfl, fun _ _ => rfl, fun v h1 h2 => by omega⟩

/-- If the new size is negative, `growproc` reports success without a change. -/
theorem growproc_negative (h : Inv g safe rest pipes hand s) (hp : (s.proc p).state ≠ .unused)
    (hd : -(2 ^ 31) ≤ d) (h0 : ((s.proc p).sz : Int) + d < 0) :
    wp (growproc g p d) (fun r s' => r = 0 ∧ (s'.proc p).sz = (s.proc p).sz) E s := by
  have hpt := ((h.procs p).live hp).2
  have hs := (h.procs p).space hpt
  have ho := h.owned_space hpt
  have hge := toNat_mod_of_neg (h.sz_lt hpt) hd h0
  rw [growproc, wp_bind, wp_get]
  simp only
  rw [if_neg (by omega), if_pos (by omega), wp_bind, wp_onKern]
  refine (uvmdealloc_spec hs ho).mono ?_
  rintro r k ⟨hr, -⟩
  rw [wp_bind, wp_modifyProc, wp_pure, setProc_proc]
  exact ⟨rfl, hr.trans (Nat.min_eq_left hge)⟩

/-- `growproc` does what it reports exactly if the new size is not negative. -/
theorem growproc_reports_iff (h : Inv g safe rest pipes hand s) (hp : (s.proc p).state ≠ .unused)
    (hd : -(2 ^ 31) ≤ d ∧ d < 2 ^ 31) :
    wp (growproc g p d) (fun r s' => DoesAsReported s s' p d r) (fun _ => False) s ↔
      0 ≤ ((s.proc p).sz : Int) + d := by
  refine ⟨fun hw => ?_, growproc_reports h hp hd.2⟩
  by_contra hneg
  have hboth := hw.and (growproc_negative h hp hd.1 (Int.not_le.mp hneg))
  cases hx : growproc g p d s with
  | error e => exact (wp_error hx).mp hboth
  | ok x =>
      obtain ⟨⟨-, hgrown⟩ | ⟨hr, -⟩, hr', hsz⟩ := (wp_ok hx).mp hboth
      · have := hgrown.size
        omega
      · rw [hr] at hr'
        cases hr'

/-! ## The first process -/

/-- The first process of a small machine, which has one page. -/
theorem boot_init : ∃ taken s₀,
    bootZeroed smallLayout = .ok (taken, s₀) ∧
      Good smallLayout (fun _ _ => False) taken s₀ ∧ (s₀.proc 0).state = .runnable ∧
        (s₀.proc 0).sz = PGSIZE ∧ (s₀.proc 0).cwd.isSome :=
  exists_boot_of_check (by decide +kernel)

/-- The first process may grow by a byte. -/
theorem growproc_reports_iff_boot : ∃ taken s₀,
    bootZeroed smallLayout = .ok (taken, s₀) ∧
      wp (growproc smallLayout 0 1) (fun r s' => DoesAsReported s₀ s' 0 1 r) (fun _ => False)
        s₀ := by
  obtain ⟨taken, s₀, hb, ⟨pipes, hg⟩, hst, -⟩ := boot_init
  exact ⟨taken, s₀, hb, (growproc_reports_iff hg (by rw [hst]; decide) (by decide)).mpr
    (by omega)⟩

/-- The first process has one page and asks to shrink by one byte more.  `growproc`
reports success and the size is the old one. -/
theorem growproc_below_zero : ∃ taken s₀ s,
    bootZeroed smallLayout = .ok (taken, s₀) ∧
      Run.exec (step smallLayout) s₀ [] = some s ∧ (s.proc 0).sz = PGSIZE ∧
      wp (growproc smallLayout 0 (-4097)) (fun r s' => r = 0 ∧ (s'.proc 0).sz = PGSIZE)
        (fun _ => False) s :=
  exists_run_of_check (by decide +kernel)

end Xv6.Vm
