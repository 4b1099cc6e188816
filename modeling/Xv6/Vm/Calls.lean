import Xv6.Vm.Ownership

/-!
# System calls keep the pages in order

Each system call of the model takes the system from a state that satisfies `Inv`
to another one, whichever of its allocations fail, and does not stop in a panic.
-/

namespace Xv6.Vm

open Hoare FreeList RefCount

variable {n : Nat} {g : Layout} {safe : Fin n → Int → Prop} {s s' : Sys n} {k : Machine}
variable {E : Panic → Prop} {m m' : Nat → Page} {rest pipes X Y A : List Nat}
variable {hand hand' : List (Fin NFILE)} {p pp np : Fin n} {q : Proc n} {f : Fin NFILE}
variable {fd : Fin NOFILE} {sz va fdarray : Nat} {d : Int} {v : Option (Fin NFILE)}

/-! ## Updates of the state -/

@[simp] theorem setKern_kern (s : Sys n) (k : Machine) : (s.setKern k).kern = k := rfl

@[simp] theorem setKern_proc (s : Sys n) (k : Machine) : (s.setKern k).proc = s.proc := rfl

@[simp] theorem setKern_setKern (s : Sys n) (k k' : Machine) :
    (s.setKern k).setKern k' = s.setKern k' := rfl

@[simp] theorem setProc_kern (s : Sys n) (p : Fin n) (q : Proc n) :
    (s.setProc p q).kern = s.kern := rfl

@[simp] theorem setProc_setKern (s : Sys n) (p : Fin n) (q : Proc n) (k : Machine) :
    (s.setProc p q).setKern k = (s.setKern k).setProc p q := rfl

@[simp] theorem setProc_setProc (s : Sys n) (p : Fin n) (q q' : Proc n) :
    (s.setProc p q).setProc p q' = s.setProc p q' := by
  simp [Sys.setProc]

@[simp] theorem setProc_proc (s : Sys n) (p : Fin n) (q : Proc n) :
    (s.setProc p q).proc p = q := Function.update_self _ _ _

theorem setProc_proc_of_ne (s : Sys n) (q : Proc n) (h : pp ≠ p) :
    (s.setProc p q).proc pp = s.proc pp := Function.update_of_ne h _ _

@[simp] theorem setProc_self (s : Sys n) (p : Fin n) : s.setProc p (s.proc p) = s := by
  simp [Sys.setProc]

theorem setKern_setProc_self (s : Sys n) (k : Machine) (p : Fin n) :
    (s.setKern k).setProc p (s.proc p) = s.setKern k := setProc_self (s.setKern k) p

/-! ## Pages of one process -/

theorem Inv.owned_proc (h : Inv g safe rest pipes hand s) (p : Fin n) :
    Owned g.IsPage s.kern ((s.proc p).pages s.kern.mem ++
      (rest ++ (pipes ++ otherPages s.kern.mem s.proc p))) :=
  h.owned.of_perm (front_perm (X := []) (procPages_perm s.kern.mem s.proc p)).symm

theorem Inv.owned_pipes (h : Inv g safe rest pipes hand s) :
    Owned g.IsPage s.kern (pipes ++ (procPages s.kern.mem s.proc ++ rest)) := by
  refine h.owned.of_perm ?_
  rw [← List.append_assoc]
  exact List.perm_append_comm

theorem Inv.trapframe_page (h : Inv g safe rest pipes hand s) (hp : (s.proc p).state ≠ .unused) :
    g.IsPage (s.proc p).trapframe := by
  have ho := h.owned_proc p
  rw [Proc.pages, Proc.frames_eq ((h.procs p).live hp).1] at ho
  exact ho.mem_range (List.mem_append_left _ (List.mem_append_left _ List.mem_cons_self))

theorem Inv.owned_space (h : Inv g safe rest pipes hand s) (hp : (s.proc p).pagetable ≠ 0) :
    Owned g.IsPage s.kern
      (space s.kern.mem (s.proc p).pagetable (npages (s.proc p).sz)) := by
  have ho := (h.owned_proc p).left.right
  rwa [Proc.tables_eq hp] at ho

/-- The kernel uses pages that it holds. -/
theorem Inv.turn (h : Inv g safe (X ++ rest) pipes hand s) (ht : Turns s.kern k X Y) :
    Inv g safe (Y ++ rest) pipes hand (s.setKern k) := by
  have hL : ((X ++ rest) ++ (pipes ++ procPages s.kern.mem s.proc)).Perm
      (X ++ (rest ++ (pipes ++ procPages s.kern.mem s.proc))) := by
    rw [List.append_assoc]
  have ho := h.owned.of_perm hL.symm
  have hpages : ∀ pp, ∀ a ∈ (s.proc pp).tables s.kern.mem, k.mem a = s.kern.mem a :=
    fun pp a ha => ht.mem_eq ho (List.mem_append_right _ (List.mem_append_right _
      (List.mem_flatMap.mpr ⟨pp, List.mem_finRange pp, List.mem_append_right _ ha⟩)))
  have hproc : procPages k.mem s.proc = procPages s.kern.mem s.proc :=
    List.flatMap_congr fun pp _ => Proc.pages_congr (hpages pp)
  have hL' : ((Y ++ rest) ++ (pipes ++ procPages k.mem s.proc)).Perm
      (Y ++ (rest ++ (pipes ++ procPages s.kern.mem s.proc))) := by
    rw [hproc, List.append_assoc]
  obtain ⟨ho', hc'⟩ := Inv.of_turns h.owned h.complete hL ht hL'
  exact ⟨ho', hc', fun pp => (h.procs pp).congr (hpages pp), h.files.congr fun a ha =>
    ht.mem_eq ho (List.mem_append_right _ (List.mem_append_left _ ha))⟩

section

variable (h : Inv g safe rest pipes hand s) (hp : (s.proc p).state ≠ .unused)

include h hp

/-- A process gets another size. -/
theorem Inv.resize
    (hs : Space k.mem (s.proc p).pagetable (npages sz) (framePte (s.proc p).trapframe) (trampPte g))
    (ht : Turns s.kern k (space s.kern.mem (s.proc p).pagetable (npages (s.proc p).sz))
      (space k.mem (s.proc p).pagetable (npages sz))) :
    Inv g safe rest pipes hand ((s.setKern k).setProc p { s.proc p with sz := sz }) := by
  have hok := h.procs p
  have hpt := (hok.live hp).2
  refine Inv.setProc (X := []) (Y := []) h ?_ ?_ ?_
  · rw [List.nil_append, List.nil_append, Proc.pages, Proc.pages, Proc.tables_eq hpt,
      Proc.tables_eq (q := { s.proc p with sz := sz }) hpt]
    exact ht.frame_left _
  · exact ⟨fun hu => absurd hu hp, hok.ended, hok.live, fun _ => hs, hok.calm⟩
  · congr 1
    funext x
    by_cases hx : x.1 = p
    · simp [slots, hx]
    · simp [slots, Function.update_of_ne hx]

/-- A store to user memory of a process. -/
theorem Inv.userWrite (hw : UserWrite s.kern k (s.proc p).pagetable (npages (s.proc p).sz)) :
    Inv g safe rest pipes hand (s.setKern k) := by
  have hpt := ((h.procs p).live hp).2
  have ho := h.owned_space hpt
  have hs := ((h.procs p).space hpt).congr (hw.tbl_same ho)
  have hr := h.resize hp hs (hw.turns ho)
  rwa [setKern_setProc_self] at hr

/-- `copyout` to a process. -/
theorem copyout_proc {src : List UInt8} :
    wp (copyout (s.proc p).pagetable va src)
      (fun _ k => Inv g safe rest pipes hand (s.setKern k)) E s.kern := by
  have hpt := ((h.procs p).live hp).2
  exact (copyout_spec ((h.procs p).space hpt) (noUser_framePte _) noUser_trampPte
    (h.owned_space hpt)).mono fun _ _ hw => h.userWrite hp hw

/-! ## `sbrk` -/

theorem growproc_spec :
    wp (growproc g p d) (fun _ s' => Inv g safe rest pipes hand s') E s := by
  have hpt := ((h.procs p).live hp).2
  have hs := (h.procs p).space hpt
  have ho := h.owned_space hpt
  rw [growproc, wp_bind, wp_get]
  simp only
  split
  · rw [wp_bind, wp_onKern]
    refine (uvmalloc_spec (by decide) hs ho).mono ?_
    rintro r k ⟨np, hcase, _, hs', ht, _, _⟩
    rcases hcase with ⟨rfl, rfl, -⟩ | ⟨hr, rfl⟩
    · rw [if_pos rfl]
      exact setKern_setProc_self s k p ▸ h.resize hp hs' ht
    · split
      · next h0 =>
          rw [h0] at hr hs' ht
          have hz : (s.proc p).sz = 0 := by omega
          rw [← hz] at hs' ht
          exact setKern_setProc_self s k p ▸ h.resize hp hs' ht
      · exact h.resize hp hs' ht
  · split
    · rw [wp_bind, wp_onKern]
      refine (uvmdealloc_spec hs ho).mono ?_
      rintro r k ⟨_, hs', ht, _⟩
      exact h.resize hp hs' ht
    · exact h

theorem sys_sbrk_spec :
    wp (sys_sbrk g p d) (fun _ s' => Inv g safe rest pipes hand s') E s := by
  rw [sys_sbrk, wp_bind, wp_get, wp_bind]
  refine (growproc_spec h hp).mono ?_
  intro r s' h'
  split <;> exact h'

end

/-! ## Freeing and allocating a process -/

/-- What `freeproc` leaves of a process. -/
def Proc.cleared (q : Proc n) : Proc n :=
  { q with
    trapframe := 0, pagetable := 0, sz := 0, pid := 0, parent := none, chan := none,
    killed := false, xstate := 0, state := .unused }

theorem Proc.ok_cleared {safe : Int → Prop} (hc : q.cwd = none) (ho : ∀ fd, q.ofile fd = none) :
    q.cleared.Ok g safe m where
  clean := fun _ => ⟨rfl, rfl, rfl, rfl, rfl, rfl, rfl, hc, ho⟩
  ended := fun h => by cases h
  live := fun h => absurd rfl h
  space := fun h => absurd rfl h
  calm := fun _ => rfl

theorem freeFrames_spec (ho : Owned g.IsPage s.kern (q.frames ++ A)) :
    wp (whenever (q.trapframe ≠ 0) (onKern (kfree g q.trapframe)))
      (fun _ s' => ∃ k, s' = s.setKern k ∧ Turns s.kern k q.frames []) E s := by
  by_cases h0 : q.trapframe = 0
  · rw [wp_whenever_neg (fun h => h h0)]
    exact ⟨s.kern, rfl, ho.left.refl.of_perm (.refl _) (by rw [Proc.frames, if_pos h0])⟩
  · rw [wp_whenever_pos h0, wp_onKern]
    rw [Proc.frames_eq h0] at ho ⊢
    exact (kfree_spec ho).mono fun _ k ht => ⟨k, rfl, ht⟩

theorem freeTables_spec (ho : Owned g.IsPage s.kern (q.tables s.kern.mem))
    (hs : q.pagetable ≠ 0 →
      Space s.kern.mem q.pagetable (npages q.sz) (framePte q.trapframe) (trampPte g)) :
    wp (whenever (q.pagetable ≠ 0) (onKern (proc_freepagetable g q.pagetable q.sz)))
      (fun _ s' => ∃ k, s' = s.setKern k ∧ Turns s.kern k (q.tables s.kern.mem) []) E s := by
  by_cases h0 : q.pagetable = 0
  · rw [wp_whenever_neg (fun h => h h0)]
    exact ⟨s.kern, rfl, ho.refl.of_perm (.refl _) (by rw [Proc.tables, if_pos h0])⟩
  · rw [wp_whenever_pos h0, wp_onKern]
    rw [Proc.tables_eq h0] at ho ⊢
    exact (proc_freepagetable_spec (hs h0) ho (leaf_framePte _) leaf_trampPte).mono
      fun _ k ht => ⟨k, rfl, ht⟩

/-- `freeproc` gives back all pages of the process. -/
theorem freeproc_spec (hq : s.proc p = q) (ho : Owned g.IsPage s.kern (q.pages s.kern.mem))
    (hs : q.pagetable ≠ 0 →
      Space s.kern.mem q.pagetable (npages q.sz) (framePte q.trapframe) (trampPte g)) :
    wp (freeproc g p) (fun _ s' => ∃ k, s' = (s.setKern k).setProc p q.cleared ∧
      Turns s.kern k (q.pages s.kern.mem) []) E s := by
  rw [freeproc, wp_bind, wp_get, hq]
  simp only
  rw [wp_bind]
  refine (freeFrames_spec ho).mono ?_
  rintro _ s₁ ⟨k₁, rfl, ht₁⟩
  have hsame : ∀ a ∈ q.tables s.kern.mem, k₁.mem a = s.kern.mem a :=
    fun a ha => ht₁.mem_eq ho ha
  have htab := Proc.tables_congr hsame
  have ho₁ : Owned g.IsPage k₁ (q.tables k₁.mem) := by
    rw [htab]
    exact ho.turns (ht₁.frame _)
  have hs₁ : q.pagetable ≠ 0 →
      Space k₁.mem q.pagetable (npages q.sz) (framePte q.trapframe) (trampPte g) := fun h0 =>
    (hs h0).congr fun a ha => hsame a (by
      rw [Proc.tables_eq h0]
      exact List.mem_append_left _ ha)
  rw [wp_bind, wp_modifyProc, wp_bind]
  refine (freeTables_spec ho₁ hs₁).mono ?_
  rintro _ s₂ ⟨k₂, rfl, ht₂⟩
  rw [wp_modifyProc]
  refine ⟨k₂, ?_, ?_⟩
  · simp [Proc.cleared, hq]
  · have ht₂' : Turns k₁ k₂ (q.tables k₁.mem) [] := ht₂
    rw [htab] at ht₂'
    exact (ht₁.frame (q.tables s.kern.mem)).trans ht₂'

/-- The same, right after a store to the process. -/
theorem freeproc_setProc (ho : Owned g.IsPage s.kern (q.pages s.kern.mem))
    (hs : q.pagetable ≠ 0 →
      Space s.kern.mem q.pagetable (npages q.sz) (framePte q.trapframe) (trampPte g)) :
    wp (freeproc g p) (fun _ s' => ∃ k, s' = (s.setKern k).setProc p q.cleared ∧
      Turns s.kern k (q.pages s.kern.mem) []) E (s.setProc p q) := by
  refine (freeproc_spec (setProc_proc s p q) ho hs).mono ?_
  rintro _ s' ⟨k, rfl, ht⟩
  exact ⟨k, by rw [setProc_setKern, setProc_setProc], ht⟩

theorem held_update_of_same (h : q.ofile = (s.proc p).ofile) :
    held (slots (Function.update s.proc p q)) hand = held (slots s.proc) hand := by
  congr 1
  funext x
  by_cases hx : x.1 = p
  · simp [slots, hx, h]
  · simp [slots, Function.update_of_ne hx]

/-- A process without open files is freed. -/
theorem freeproc_inv (h : Inv g safe rest pipes hand s) (hc : (s.proc p).cwd = none)
    (hof : ∀ fd, (s.proc p).ofile fd = none) :
    wp (freeproc g p) (fun _ s' => Inv g safe rest pipes hand s') E s := by
  refine (freeproc_spec rfl (h.owned_proc p).left (h.procs p).space).mono ?_
  rintro _ s' ⟨k, rfl, ht⟩
  refine Inv.setProc (X := []) (Y := []) h ?_ (Proc.ok_cleared hc hof) (held_update_of_same rfl)
  rw [Proc.pages_eq_nil (q := (s.proc p).cleared) rfl rfl]
  exact ht

/-- Nothing is left of a process that could not be made. -/
structure Undone (s s' : Sys n) : Prop where
  frees : Turns s.kern s'.kern [] []
  file : s'.file = s.file
  used : ∀ p, (s.proc p).state ≠ .unused → s'.proc p = s.proc p
  unused : ∀ p, (s.proc p).state = .unused → (s'.proc p).state = .unused

theorem Inv.undone (h : Inv g safe rest pipes hand s) : Undone s s :=
  ⟨(h.owned.of_perm (.refl ([] ++ _))).left.refl, rfl, fun _ _ => rfl, fun _ h => h⟩

/-- The tried slot is cleared. -/
theorem Undone.cleared {s₁ : Sys n} (hun : (s.proc p).state = .unused)
    (hother : ∀ pp, pp ≠ p → s₁.proc pp = s.proc pp) (hfile : s₁.file = s.file)
    (ht : Turns s.kern k [] []) : Undone s ((s₁.setKern k).setProc p q.cleared) where
  frees := ht
  file := hfile
  used := fun pp hpp => by
    have he : pp ≠ p := fun he => hpp (he ▸ hun)
    rw [setProc_proc_of_ne _ _ he]
    exact hother pp he
  unused := fun pp hpp => by
    by_cases he : pp = p
    · rw [he, setProc_proc]
      rfl
    · rw [setProc_proc_of_ne _ _ he, setKern_proc, hother pp he]
      exact hpp

/-- The slot `np` was free and has a trapframe and an empty address space now. -/
structure Allocated (s s' : Sys n) (np : Fin n) : Prop where
  unused : (s.proc np).state = .unused
  used : (s'.proc np).state = .used
  sz : (s'.proc np).sz = 0
  cwd : (s'.proc np).cwd = none
  ofile : ∀ fd, (s'.proc np).ofile fd = none
  pid : (s'.proc np).pid = s.nextpid
  others : ∀ p, p ≠ np → s'.proc p = s.proc p
  file : s'.file = s.file
  turns : Turns s.kern s'.kern [] ((s'.proc np).pages s'.kern.mem)
  length : s.kern.frees.length ≤ s'.kern.frees.length + 6

/-- A slot is taken and gets a trapframe and an empty address space, or nothing
is taken. -/
theorem allocproc_spec (h : Inv g safe rest pipes hand s)
    (hsafe : ∀ p c, safe p c → safe p 0) :
    wp (allocproc g) (fun r s' => Inv g safe rest pipes hand s' ∧
      (r = none → Undone s s' ∧
        ((∀ i, (s.proc i).state ≠ .unused) ∨ s.kern.frees.length < 6)) ∧
      ∀ np, r = some np → Allocated s s' np) E s := by
  rw [allocproc, wp_bind, wp_get]
  cases hfind : (List.finRange n).find? fun p => (s.proc p).state = .unused with
  | none =>
      refine ⟨h, fun _ => ⟨h.undone, .inl fun i => ?_⟩, fun np hnp => by cases hnp⟩
      simpa using List.find?_eq_none.mp hfind i (List.mem_finRange i)
  | some p =>
      have hun : (s.proc p).state = .unused := by simpa using List.find?_some hfind
      have hcl := (h.procs p).clean hun
      have hpages : (s.proc p).pages s.kern.mem = [] :=
        Proc.pages_eq_nil hcl.trapframe hcl.pagetable
      have ho : Owned g.IsPage s.kern [] := by
        have ho := (h.owned_proc p).left
        rwa [hpages] at ho
      simp only
      rw [wp_bind, allocpid, wp_bind, wp_get, wp_bind, wp_set]
      have hundo : ∀ (k : Machine) (q : Proc n), Turns s.kern k [] [] →
          Undone s ((Sys.setKern { s with nextpid := Int.bmod (s.nextpid + 1) (2 ^ 32) } k).setProc
            p q.cleared) := fun k q ht => .cleared hun (fun _ _ => rfl) rfl ht
      generalize hs₁ : { s with nextpid := _ } = s₁ at hundo ⊢
      have h₁ : Inv g safe rest pipes hand s₁ := by
        subst hs₁
        exact ⟨h.owned, h.complete, h.procs, h.files⟩
      have hproc : s₁.proc = s.proc := by rw [← hs₁]
      have hkern : s₁.kern = s.kern := by rw [← hs₁]
      have hfile : s₁.file = s.file := by rw [← hs₁]
      rw [← hproc] at hun hcl hpages
      rw [← hkern] at hpages ho hundo
      clear hs₁ h hfind
      -- what is left when an allocation fails
      have hfail : ∀ (k : Machine) (q : Proc n), q.cwd = none → (∀ fd, q.ofile fd = none) →
          Turns s₁.kern k [] [] →
          Inv g safe rest pipes hand ((s₁.setKern k).setProc p q.cleared) := by
        intro k q hc hof ht
        refine Inv.setProc (X := []) (Y := []) h₁ ?_ (Proc.ok_cleared hc hof)
          (held_update_of_same ?_)
        · rw [hpages, Proc.pages_eq_nil (q := q.cleared) rfl rfl]
          exact ht
        · funext fd
          exact (hof fd).trans (hcl.ofile fd).symm
      rw [wp_pure, wp_bind, wp_modifyProc, wp_bind, wp_onKern, setProc_kern]
      refine (kalloc_spec ho).mono ?_
      rintro tf k₁ (⟨rfl, rfl, hnone⟩ | ⟨htf, ht₁⟩)
      · simp only [setProc_setKern, wp_bind, wp_modifyProc, setProc_setProc, setProc_proc, if_true]
        refine wp.mono (freeproc_setProc ?_ (fun h => absurd hcl.pagetable h)) ?_
        · simpa [Proc.pages, Proc.frames, Proc.tables, hcl.pagetable] using ho
        · rintro _ s₂ ⟨k, rfl, ht⟩
          simp only [Proc.pages, Proc.frames, Proc.tables, hcl.pagetable, if_true] at ht
          rw [hkern] at hnone
          exact ⟨hfail k _ hcl.cwd hcl.ofile ht, fun _ => ⟨hundo k _ ht, .inr (by omega)⟩,
            fun np hnp => by cases hnp⟩
      · have ho₁ : Owned g.IsPage k₁ [tf] := ho.turns ht₁
        have hrange := ho₁.mem_range List.mem_cons_self
        have hlen := ht₁.length
        simp only [List.length_cons, List.length_nil, hkern] at hlen
        simp only [setProc_setKern, wp_bind, wp_modifyProc, setProc_setProc, setProc_proc,
          if_neg htf, wp_onKern, setProc_kern, setKern_kern]
        refine (proc_pagetable_spec ho₁ hrange.2.2).mono ?_
        rintro r k₂ ⟨htakes, ⟨rfl, ht₂⟩ | ⟨hr, ht₂, hsp⟩⟩
        · simp only [setKern_setKern, if_true]
          have ht₃ := ht₂.frame [tf]
          rw [wp_bind]
          refine wp.mono (freeproc_setProc ?_ ?_) ?_
          · simp only [Proc.pages, Proc.frames, Proc.tables, if_neg htf, if_true]
            exact ho₁.turns ht₃
          · exact fun h => absurd rfl h
          · rintro _ s₂ ⟨k, rfl, ht⟩
            simp only [Proc.pages, Proc.frames, Proc.tables, if_neg htf, if_true] at ht
            have ht' := (ht₁.trans ht₃).trans ht
            have hlt := htakes.free rfl
            exact ⟨hfail k _ hcl.cwd hcl.ofile ht', fun _ => ⟨hundo k _ ht', .inr (by omega)⟩,
              fun np hnp => by cases hnp⟩
        · simp only [setKern_setKern, setProc_setProc, setProc_proc, if_neg hr, wp_bind,
            wp_modifyProc, wp_pure]
          have hlength : s.kern.frees.length ≤ k₂.frees.length + 6 := by
            have := htakes.length
            omega
          have hsz : npages (s₁.proc p).sz = 0 := by rw [hcl.sz]; rfl
          have htake : Turns s₁.kern k₂ [] (tf :: space k₂.mem r (npages (s₁.proc p).sz)) := by
            rw [hsz]
            exact ht₁.trans ((ht₂.frame [tf]).of_perm (.refl _)
              (List.perm_append_singleton tf _).symm)
          refine ⟨Inv.setProc (X := []) (Y := []) h₁ ?_ ⟨?_, ?_, fun _ => ⟨htf, hr⟩, fun _ => ?_,
            ?_⟩ (held_update_of_same rfl), (by cases ·), ?_⟩
          · rw [hpages, Proc.pages_eq htf hr]
            exact htake
          · exact fun hu => by cases hu
          · exact fun hu => by cases hu
          · simp only [hsz]
            exact hsp
          · exact fun hs => (h₁.procs p).calm (hcl.pid ▸ hsafe _ _ hs)
          · rintro np hnp
            cases hnp
            refine ⟨hproc ▸ hun, ?_, ?_, ?_, ?_, ?_,
              fun p' hp' => (setProc_proc_of_ne _ _ hp').trans (congrFun hproc p'), hfile, ?_,
              hlength⟩ <;> rw [setProc_proc]
            · exact hcl.sz
            · exact hcl.cwd
            · exact hcl.ofile
            · rw [Proc.pages_eq htf hr, ← hkern]
              exact htake

/-! ## Open files -/

@[simp] theorem setOfile_state : (q.setOfile fd v).state = q.state := rfl

theorem slots_setOfile :
    slots (Function.update s.proc p ((s.proc p).setOfile fd v)) =
      Function.update (slots s.proc) (p, fd) v := by
  funext x
  by_cases hx : x.1 = p
  · by_cases hy : x.2 = fd
    · have he : x = (p, fd) := Prod.ext hx hy
      subst he
      simp [slots, Proc.setOfile]
    · have he : x ≠ (p, fd) := fun he => hy (congrArg Prod.snd he)
      rw [Function.update_of_ne he]
      simp [slots, Proc.setOfile, hx, hy]
  · have he : x ≠ (p, fd) := fun he => hx (congrArg Prod.fst he)
    rw [Function.update_of_ne he]
    simp [slots, Function.update_of_ne hx]

/-- A descriptor changes, and a reference goes to or comes from the hand. -/
theorem Inv.setOfile (h : Inv g safe rest pipes hand s)
    (hv : v = none ∨ (s.proc p).state ≠ .unused ∧ (s.proc p).state ≠ .zombie)
    (hh : held (Function.update (slots s.proc) (p, fd) v) hand' = held (slots s.proc) hand) :
    Inv g safe rest pipes hand' (s.setProc p ((s.proc p).setOfile fd v)) := by
  have hok := h.procs p
  have hnone : (∀ fd, (s.proc p).ofile fd = none) → v = none →
      ∀ fd', ((s.proc p).setOfile fd v).ofile fd' = none := by
    intro hall hv fd'
    by_cases hf : fd' = fd
    · simp [Proc.setOfile, hf, hv]
    · simpa [Proc.setOfile, hf] using hall fd'
  have he : (s.setKern s.kern).setProc p ((s.proc p).setOfile fd v) =
      s.setProc p ((s.proc p).setOfile fd v) := rfl
  rw [← he]
  refine Inv.setProc (X := []) (Y := []) h ?_ ⟨fun hu => ?_, fun hz => ⟨(hok.ended hz).1, ?_⟩,
    hok.live, hok.space, hok.calm⟩ ?_
  · exact (h.owned_proc p).left.refl
  · rcases hv with hv | hv
    · obtain ⟨h1, h2, h3, h4, h5, h6, h7, h8, h9⟩ := hok.clean hu
      exact ⟨h1, h2, h3, h4, h5, h6, h7, h8, hnone h9 hv⟩
    · exact absurd hu hv.1
  · rcases hv with hv | hv
    · exact hnone (hok.ended hz).2 hv
    · exact absurd hz hv.2
  · rw [slots_setOfile]
    exact hh

/-- A reference in hand is stored in a free descriptor. -/
theorem Inv.putFd (h : Inv g safe rest pipes (f :: hand) s) (hfd : (s.proc p).ofile fd = none)
    (h1 : (s.proc p).state ≠ .unused) (h2 : (s.proc p).state ≠ .zombie) :
    Inv g safe rest pipes hand (s.setProc p ((s.proc p).setOfile fd (some f))) :=
  h.setOfile (.inr ⟨h1, h2⟩) (held_put (o := slots s.proc) (i := (p, fd)) hfd)

/-- A descriptor is cleared and its reference taken in hand. -/
theorem Inv.takeFd (h : Inv g safe rest pipes hand s) (hfd : (s.proc p).ofile fd = some f) :
    Inv g safe rest pipes (f :: hand) (s.setProc p ((s.proc p).setOfile fd none)) :=
  h.setOfile (.inl rfl) (held_take (o := slots s.proc) (i := (p, fd)) hfd)

theorem Inv.perm_hand (h : Inv g safe rest pipes hand s) (hp : hand.Perm hand') :
    Inv g safe rest pipes hand' s where
  owned := h.owned
  complete := h.complete
  procs := h.procs
  files := by
    have he : held (slots s.proc) hand' = held (slots s.proc) hand := by
      funext f
      rw [held, held, hp.count_eq f]
    rw [he]
    exact h.files

/-- `filedup` for an open file. -/
theorem filedup_inv (h : Inv g safe rest pipes hand s) (hfd : (s.proc p).ofile fd = some f) :
    wp (filedup f) (fun _ s' => Inv g safe rest pipes (f :: hand) s' ∧ s'.proc = s.proc) E s := by
  have hpos : 0 < held (slots s.proc) hand f := held_pos (i := (p, fd)) hfd
  refine (filedup_spec h.files hpos).mono ?_
  rintro _ s' ⟨hk, hfo, hf⟩
  refine ⟨h.setFiles hfo ?_ ?_, hfo.proc⟩
  · rw [hk]
    exact h.owned.right.left.refl
  · rw [hk, held_cons]
    exact hf

/-- `fileclose` of a reference in hand. -/
theorem fileclose_inv (h : Inv g safe rest pipes (f :: hand) s) :
    wp (fileclose g f) (fun _ s' => ∃ pipes, Inv g safe rest pipes hand s') E s := by
  have hf := h.files
  rw [held_cons] at hf
  refine (fileclose_spec hf h.owned_pipes).mono ?_
  rintro _ s' ⟨hfo, pipes', ht, hf'⟩
  exact ⟨pipes', h.setFiles hfo ht hf'⟩

theorem sys_close_spec (h : Inv g safe rest pipes hand s) :
    wp (sys_close g p d) (fun _ s' => ∃ pipes, Inv g safe rest pipes hand s') E s := by
  rw [sys_close, wp_bind, wp_get]
  split
  · next hd =>
      cases hf : (s.proc p).ofile ⟨d.toNat, hd.2⟩ with
      | none => exact ⟨pipes, h⟩
      | some f =>
          simp only
          rw [wp_bind, wp_modifyProc, wp_bind]
          exact fileclose_inv (h.takeFd hf)
  · exact ⟨pipes, h⟩

theorem fdalloc_spec (h : Inv g safe rest pipes (f :: hand) s) (h1 : (s.proc p).state ≠ .unused)
    (h2 : (s.proc p).state ≠ .zombie) :
    wp (fdalloc p f) (fun r s' => r = none ∧ s' = s ∨ ∃ fd, r = some fd ∧
      (s.proc p).ofile fd = none ∧ s' = s.setProc p ((s.proc p).setOfile fd (some f)) ∧
      Inv g safe rest pipes hand s') E s := by
  rw [fdalloc, wp_bind, wp_get]
  cases hfind : (List.finRange NOFILE).find? fun fd => ((s.proc p).ofile fd).isNone with
  | none => exact .inl ⟨rfl, rfl⟩
  | some fd =>
      have hfd : (s.proc p).ofile fd = none := by simpa using List.find?_some hfind
      exact .inr ⟨fd, rfl, hfd, rfl, h.putFd hfd h1 h2⟩

end Xv6.Vm
