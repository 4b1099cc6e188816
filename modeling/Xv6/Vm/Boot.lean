import Xv6.Vm.Lifecycle

/-!
# Boot

`kinit` puts every page of memory on the free list, the kernel takes its pages,
and `userinit` makes the first process.  There is room for all of it (`Layout`),
so none of the allocations fails, and the pages are in order afterwards.
-/

namespace Xv6.Vm

open Hoare FreeList RefCount

variable {n : Nat} {g : Layout} {safe : Fin n → Int → Prop} {s : Machine} {A : List Nat}
variable {E : Panic → Prop} {p np fr tr v pa perm k a : Nat} {m : Nat → Page}

/-! ## The free list -/

/-- Pages from an address on. -/
def pagesFrom : Nat → Nat → List Nat
  | _, 0 => []
  | p, n + 1 => p :: pagesFrom (p + PGSIZE) n

theorem mem_pagesFrom : a ∈ pagesFrom p n ↔ ∃ i < n, a = p + i * PGSIZE := by
  induction n generalizing p with
  | zero => simp [pagesFrom]
  | succ n ih =>
      rw [pagesFrom, List.mem_cons, ih]
      constructor
      · rintro (rfl | ⟨i, hi, rfl⟩)
        · exact ⟨0, by omega, by omega⟩
        · exact ⟨i + 1, by omega, by rw [Nat.add_mul]; omega⟩
      · rintro ⟨i, hi, rfl⟩
        cases i with
        | zero => exact .inl (by omega)
        | succ i => exact .inr ⟨i, by omega, by rw [Nat.add_mul]; omega⟩

theorem nodup_pagesFrom : (pagesFrom p n).Nodup := by
  induction n generalizing p with
  | zero => exact List.nodup_nil
  | succ n ih =>
      refine List.nodup_cons.mpr ⟨fun hm => ?_, ih⟩
      obtain ⟨i, _, hi⟩ := mem_pagesFrom.mp hm
      rw [PGSIZE] at hi
      omega

theorem length_pagesFrom : (pagesFrom p n).length = n := by
  induction n generalizing p with
  | zero => rfl
  | succ n ih => rw [pagesFrom, List.length_cons, ih]

theorem freerangeLoop_spec (ho : Owned g.IsPage s (pagesFrom p n ++ A)) :
    wp (freerangeLoop g n p) (fun _ s' => Turns s s' (pagesFrom p n) []) E s := by
  induction n generalizing s p with
  | zero => exact ho.left.refl
  | succ n ih =>
      rw [freerangeLoop, wp_bind]
      refine (kfree_spec ho).mono ?_
      intro _ s₁ h₁
      refine (ih (ho.turns (h₁.frame _))).mono ?_
      intro _ s' h'
      exact (h₁.frame (pagesFrom (p + PGSIZE) n)).trans h'

/-- The number of pages of memory. -/
def Layout.pageCount (g : Layout) : Nat := (PHYSTOP - PGROUNDUP g.ends) / PGSIZE

theorem isPage_iff : g.IsPage a ↔ a ∈ pagesFrom (PGROUNDUP g.ends) g.pageCount := by
  have hroom := g.room
  rw [mem_pagesFrom, Layout.IsPage, Layout.pageCount]
  rw [PGROUNDUP, PGSIZE] at *
  have hstop : PHYSTOP = 0x88000000 := rfl
  constructor
  · rintro ⟨h1, h2, h3⟩
    exact ⟨(a - (g.ends + 4096 - 1) / 4096 * 4096) / 4096, by omega, by omega⟩
  · rintro ⟨i, hi, rfl⟩
    refine ⟨by omega, by omega, by omega⟩

theorem le_pageCount : g.bootPages + 16 ≤ g.pageCount := by
  have hroom := g.room
  rw [Layout.pageCount]
  rw [PGSIZE] at *
  omega

/-- All pages are free after `kinit`. -/
theorem kinit_spec (hs : s.free = 0) :
    wp (kinit g) (fun _ s' => Owned g.IsPage s' [] ∧ (∀ a, g.IsPage a → a ∈ s'.frees) ∧
      s'.frees.length = g.pageCount) E s := by
  have hc : Chain s.mem s.free [] := by
    rw [hs]
    exact .nil
  have hn : s.frees = [] := Heap.frees_eq hc
  have ho : Owned g.IsPage s (pagesFrom (PGROUNDUP g.ends) g.pageCount ++ []) := by
    refine ⟨by rw [hn]; exact hc, ?_, ?_⟩
    · rw [hn, List.append_nil, List.append_nil]
      exact nodup_pagesFrom
    · intro a ha
      rw [hn, List.append_nil, List.append_nil] at ha
      exact isPage_iff.mpr ha
  refine (freerangeLoop_spec ho).mono ?_
  intro _ s' ht
  have hperm := ht.perm
  rw [hn, List.append_nil, List.nil_append] at hperm
  refine ⟨ho.turns (ht.frame []), fun a ha => hperm.mem_iff.mpr (isPage_iff.mp ha), ?_⟩
  rw [hperm.length_eq, length_pagesFrom]

theorem takePages_spec (ho : Owned g.IsPage s A) (hk : k ≤ s.frees.length) :
    wp (takePages k) (fun l s' => Turns s s' [] l ∧ l.length = k) E s := by
  have ho0 : Owned g.IsPage s [] := Owned.left (A := []) ho
  induction k generalizing s A with
  | zero => exact ⟨ho0.refl, rfl⟩
  | succ k ih =>
      rw [takePages, wp_bind]
      refine (kalloc_spec ho0).mono ?_
      rintro r s₁ (⟨rfl, rfl, hnone⟩ | ⟨hr, h₁⟩)
      · omega
      · rw [if_neg hr, wp_bind]
        have hlen := h₁.length
        have ho₁ : Owned g.IsPage s₁ [r] := ho0.turns h₁
        refine (ih ho₁ (by simp at hlen; omega) (Owned.left (A := []) ho₁)).mono ?_
        rintro l s' ⟨ht, hl⟩
        refine ⟨h₁.trans ((ht.frame [r]).of_perm (.refl _) ?_), by rw [List.length_cons, hl]⟩
        exact (List.perm_append_singleton r l).symm

/-! ## `userinit` -/

/-- The page of `initcode` is mapped. -/
theorem uvmfirst_spec {src : List UInt8} (hs : Space s.mem p 0 fr tr)
    (ho : Owned g.IsPage s (space s.mem p 0)) (hsrc : src.length < PGSIZE)
    (hfree : 3 ≤ s.frees.length) :
    wp (uvmfirst p src) (fun _ s' => Space s'.mem p 1 fr tr ∧
      Turns s s' (space s.mem p 0) (space s'.mem p 1)) E s := by
  rw [uvmfirst, if_neg (Nat.not_le.mpr hsrc), wp_bind]
  refine (kalloc_spec ho).mono ?_
  rintro r s₁ (⟨rfl, rfl, hnone⟩ | ⟨hr, h₁⟩)
  · omega
  rw [if_neg hr, wp_bind, wp_memset, wp_bind]
  have hadd : wp (mappages p (0 * PGSIZE) PGSIZE r (PTE_W ||| PTE_R ||| PTE_X ||| PTE_U)) _ E
      (s₁.set r (Page.fill 0)) := addPage_spec hs ho h₁ (by decide) (by decide)
  rw [Nat.zero_mul] at hadd
  refine hadd.mono ?_
  rintro x s₃ ⟨htakes, ⟨rfl, hs₃, ht₃, -, hent, hal, -⟩ | ⟨rfl, -⟩⟩
  · rw [wp_storeBytes]
    generalize Bytes.Region.write _ _ _ = pg
    have ho₃ := ho.turns ht₃
    have hmem : r ∈ targets s₃.mem p 0 1 := by
      have hm : PTE2PA (entry s₃.mem p 0) ∈ targets s₃.mem p 0 1 := mem_targets (by omega)
      rwa [hent, PTE2PA_leaf hal (by decide)] at hm
    have hw := UserWrite.set ho₃ hmem pg
    exact ⟨hs₃.congr (hw.tbl_same ho₃), ht₃.trans (hw.turns ho₃)⟩
  · have := htakes.free rfl
    omega

theorem userinit_spec {s : Sys n} {rest pipes : List Nat} {i : Fin n}
    (h : Inv g safe rest pipes [] s) (hsafe : ∀ p c, safe p c → safe p 0)
    (hi : (s.proc i).state = .unused) (hfree : 9 ≤ s.kern.frees.length) :
    wp (userinit g) (fun _ s' => Inv g safe rest pipes [] s') E s := by
  rw [userinit, wp_bind]
  refine (allocproc_spec h hsafe).mono ?_
  rintro r s₁ ⟨h₁, hnone, hr⟩
  cases r with
  | none =>
      rcases (hnone rfl).2 with hno | hlt
      · exact absurd hi (hno i)
      · omega
  | some p =>
      obtain ⟨-, hst, hsz, -, -, -, -, -, -, hlen⟩ := hr p rfl
      have hu : (s₁.proc p).state ≠ .unused := by simp [hst]
      obtain ⟨htf, hpt⟩ := (h₁.procs p).live hu
      have hs := (h₁.procs p).space hpt
      have ho := h₁.owned_space hpt
      have hz : npages (s₁.proc p).sz = 0 := by rw [hsz]; rfl
      rw [wp_bind, wp_modify]
      have h₂ : Inv g safe rest pipes [] { s₁ with initproc := some p } :=
        ⟨h₁.owned, h₁.complete, h₁.procs, h₁.files⟩
      generalize hs₂ : { s₁ with initproc := some p } = s₂ at h₂ ⊢
      have hproc : s₂.proc = s₁.proc := by rw [← hs₂]
      have hkern : s₂.kern = s₁.kern := by rw [← hs₂]
      rw [← hproc, ← hkern] at hs ho
      rw [← hproc] at hu hz hst
      rw [← hkern] at hlen
      rw [hz] at hs ho
      rw [wp_bind, wp_get, wp_bind, wp_onKern]
      refine (uvmfirst_spec hs ho (by decide) (by omega)).mono ?_
      rintro _ k ⟨hs', ht⟩
      have h₃ : Inv g safe rest pipes []
          ((s₂.setKern k).setProc p { s₂.proc p with sz := PGSIZE }) :=
        h₂.resize hu hs' (by rw [hz]; exact ht)
      rw [wp_bind, wp_modifyProc, wp_bind, wp_onKern]
      refine (storeTrapframe_spec (p := p) h₃ (by simp [hst]) (by simp)).mono ?_
      intro _ k₄ h₄
      rw [wp_bind, wp_onKern]
      refine (storeTrapframe_spec (p := p) h₄ (by simp [hst]) (by simp)).mono ?_
      intro _ k₅ h₅
      simp only [setProc_setKern, setKern_setKern, wp_bind, wp_modifyProc, setProc_setProc,
        setProc_proc] at h₅ ⊢
      have h₆ := h₅.setFields (p := p) (q := { s₂.proc p with
        sz := PGSIZE, cwd := some ⟨0, by decide⟩, state := .runnable }) (by simp [hst])
        ⟨by simp, by simp, by simp, by simp, by simp, by simp⟩ (by simp) (by simp)
      rwa [setProc_setProc] at h₆

/-! ## The state after boot -/

/-- A slot of the process table before boot. -/
theorem Proc.ok_zeroed {safe : Int → Prop} (mem : Nat → Page) (i : Fin n) :
    ((zeroed n mem).proc i).Ok g safe m where
  clean := fun _ => ⟨rfl, rfl, rfl, rfl, rfl, rfl, rfl, rfl, fun _ => rfl⟩
  ended := nofun
  live := fun h => absurd rfl h
  space := fun h => absurd rfl h
  calm := fun _ => rfl

/-- There are no references before boot. -/
theorem Files.zeroed (mem : Nat → Page) :
    Files (held (slots (zeroed n mem).proc) []) [] (zeroed n mem).file m := by
  have h0 : ∀ f, held (slots (Vm.zeroed n mem).proc) [] f = 0 :=
    fun f => refs_eq_zero.mpr nofun
  refine ⟨fun f => (h0 f).symm, fun _ _ => rfl, fun pi => ⟨nofun, ?_⟩, ?_, nofun⟩
  · rintro ⟨w, f, hf, -⟩
    cases hf
  · rintro pi w f f' ⟨hf, -⟩
    cases hf

/-- Boot succeeds, and the pages are in order. -/
theorem boot_spec {mem : Nat → Page} {safe : Fin (n + 1) → Int → Prop}
    (hsafe : ∀ p c, safe p c → safe p 0) :
    wp (boot g) (fun taken s => Good g safe taken s) E (zeroed (n + 1) mem) := by
  rw [boot, wp_bind, wp_onKern]
  refine (kinit_spec rfl).mono ?_
  rintro _ k₁ ⟨ho₁, hall, hlen⟩
  have hle := le_pageCount (g := g)
  rw [wp_bind, wp_onKern]
  refine (takePages_spec (s := k₁) ho₁ (by omega)).mono ?_
  rintro taken k₂ ⟨ht, htaken⟩
  have hnil : procPages k₂.mem (zeroed (n + 1) mem).proc = [] :=
    List.flatMap_eq_nil_iff.mpr fun p _ => Proc.pages_eq_nil rfl rfl
  have hinv : Inv g safe taken [] [] ((zeroed (n + 1) mem).setKern k₂) := by
    refine ⟨?_, fun a ha => ?_, fun p => Proc.ok_zeroed mem p, Files.zeroed mem⟩
    · show Owned g.IsPage k₂ (taken ++ ([] ++ procPages k₂.mem (zeroed (n + 1) mem).proc))
      rw [hnil, List.append_nil, List.append_nil]
      exact ho₁.turns ht
    · show a ∈ (taken ++ ([] ++ procPages k₂.mem (zeroed (n + 1) mem).proc)) ++ k₂.frees
      rw [hnil, List.append_nil, List.append_nil]
      exact ht.perm.mem_iff.mpr (hall a ha)
  have hlen₂ := ht.length
  simp only [List.length_nil] at hlen₂
  rw [wp_bind]
  refine (userinit_spec (i := 0) hinv hsafe rfl ?_).mono ?_
  · show 9 ≤ k₂.frees.length
    omega
  · intro _ s' h'
    exact ⟨[], h'⟩

end Xv6.Vm
