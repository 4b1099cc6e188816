import Xv6.Vm.Sbrk

/-!
# What `fork` copies, and what failed calls leave

The system of the other modules leaves the inode table out.  Here its reference
counts are added, so that `fork` is the function of the source with the call of
`idup`; without them it is the `fork` of the other modules (`forkRefs_fork`).  A
child that is made has the pages, registers, open files and current directory of
its parent.  A child that cannot be made leaves nothing behind, whichever
allocation failed, and neither does a pipe that cannot be made.
-/

namespace Xv6.Vm

open Hoare FreeList RefCount

variable {n : Nat} {g : Layout} {safe : Fin n → Int → Prop} {s s' : Sys n} {k : Machine}
variable {E : Panic → Prop} {rest pipes : List Nat} {hand : List (Fin NFILE)} {p np : Fin n}
  {α β : Type} {fd : Fin NOFILE} {src dst : Fin NOFILE → Option (Fin NFILE)}

/-! ## The reference counts of inodes -/

/-- The system with `ip->ref` for every entry of the inode table. -/
structure World (n : Nat) where
  sys : Sys n
  iref : Fin NINODE → Nat

abbrev WorldM (n : Nat) := Prog (World n) Panic

def World.setSys (w : World n) (s : Sys n) : World n := { w with sys := s }

def onSys {α : Type} (x : SysM n α) : WorldM n α := zoom World.sys World.setSys x

/-- `idup` of a null pointer is a trap. -/
def idup : Option (Fin NINODE) → WorldM n Unit
  | none => throw .fault
  | some i => modify fun w => { w with iref := Function.update w.iref i (w.iref i + 1) }

/-- `fork` with the reference that the child takes to the current directory. -/
def forkRefs (g : Layout) (p : Fin n) : WorldM n Int := do
  match ← onSys (allocproc g) with
  | none => return -1
  | some np =>
      let s ← onSys get
      let q := s.proc p
      let nq := s.proc np
      let r ← onSys (onKern (uvmcopy g q.pagetable nq.pagetable q.sz))
      if r < 0 then
        onSys (freeproc g np)
        return -1
      else
        onSys (modifyProc np fun x => { x with sz := q.sz })
        onSys (onKern (copyTrapframe nq.trapframe q.trapframe))
        onSys (forkFiles p np (List.finRange NOFILE))
        idup q.cwd
        onSys (modifyProc np fun x => { x with cwd := q.cwd })
        onSys (modifyProc np fun x => { x with parent := some p })
        onSys (modifyProc np fun x => { x with state := .runnable })
        return nq.pid

/-- Every run of `x` is a run of `y` without the inode table. -/
def Projects {α : Type} (x : WorldM n α) (y : SysM n α) : Prop :=
  ∀ w, wp x (fun a w' => y w.sys = .ok (a, w'.sys)) (fun _ => True) w

theorem Projects.onSys (y : SysM n α) : Projects (onSys y) y := by
  intro w
  rw [Vm.onSys, wp_zoom]
  cases hy : y w.sys with
  | error e => exact (wp_error hy).mpr trivial
  | ok r => exact (wp_ok hy).mpr rfl

theorem Projects.bind {x : WorldM n α} {y : SysM n α} {f : α → WorldM n β} {f' : α → SysM n β}
    (h : Projects x y) (hf : ∀ a, Projects (f a) (f' a)) :
    Projects (x >>= f) (y >>= f') := by
  intro w
  rw [wp_bind]
  refine (h w).mono fun a w₁ ha => (hf a w₁).mono fun b w₂ hb => ?_
  show (y w.sys >>= fun r => f' r.1 r.2) = _
  rw [ha]
  exact hb

theorem Projects.pure (a : α) : Projects (n := n) (pure a) (pure a) := fun _ => rfl

/-- A step on the inode table only. -/
theorem Projects.skip {x : WorldM n Unit} {f : Unit → WorldM n β} {y : SysM n β}
    (hx : ∀ w, wp x (fun _ w' => w'.sys = w.sys) (fun _ => True) w) (hf : Projects (f ()) y) :
    Projects (x >>= f) y := by
  intro w
  rw [wp_bind]
  refine (hx w).mono fun _ w₁ h₁ => ?_
  rw [← h₁]
  exact hf w₁

/-- Without the inode table, `forkRefs` is `fork`. -/
theorem forkRefs_fork (p : Fin n) : Projects (forkRefs g p) (fork g p) := by
  refine .bind (.onSys _) fun r => ?_
  cases r with
  | none => exact .pure _
  | some np =>
      refine .bind (.onSys _) fun s => .bind (.onSys _) fun r => ?_
      by_cases hr : r < 0
      · simp only [if_pos hr]
        exact .bind (.onSys _) fun _ => .pure _
      · simp only [if_neg hr]
        refine .bind (.onSys _) fun _ => .bind (.onSys _) fun _ => .bind (.onSys _) fun _ => ?_
        refine .skip (fun w => ?_) (.bind (.onSys _) fun _ => .bind (.onSys _) fun _ =>
          .bind (.onSys _) fun _ => .pure _)
        cases (s.proc p).cwd with
        | none => trivial
        | some i => rfl

/-! ## What is copied -/

/-- The child `np` of `p` is a copy of its parent, which is unchanged. -/
structure Forked (s s' : Sys n) (p np : Fin n) : Prop where
  slot : (s.proc np).state = .unused ∧ (s'.proc np).state = .runnable
  sz : (s'.proc np).sz = (s.proc p).sz
  pages : ∀ v < npages (s.proc p).sz,
    PageCopy s.kern.mem (s.proc p).pagetable s'.kern.mem (s'.proc np).pagetable v
  fresh : ∀ v < npages (s.proc p).sz,
    PTE2PA (entry s'.kern.mem (s'.proc np).pagetable v) ∈ s.kern.frees ∧
      PTE2PA (entry s'.kern.mem (s'.proc np).pagetable v) ∉ (s.proc p).pages s.kern.mem
  a0 : (s'.kern.mem (s'.proc np).trapframe).getLe trapframeA0 8 = 0
  registers : ∀ o < trapframeSize, o < trapframeA0 ∨ trapframeA0 + 8 ≤ o →
    (s'.kern.mem (s'.proc np).trapframe).get o = (s.kern.mem (s.proc p).trapframe).get o
  ofile : (s'.proc np).ofile = (s.proc p).ofile
  cwd : (s'.proc np).cwd = (s.proc p).cwd
  parent : s'.proc p = s.proc p
  memory : ∀ a ∈ (s.proc p).pages s.kern.mem, s'.kern.mem a = s.kern.mem a

/-- The descriptors `dst` after those in `fds` were copied from `src`. -/
def copyFds (fds : List (Fin NOFILE)) (src dst : Fin NOFILE → Option (Fin NFILE)) :
    Fin NOFILE → Option (Fin NFILE) :=
  fun fd => if fd ∈ fds ∧ src fd ≠ none then src fd else dst fd

theorem copyFds_nil (src dst : Fin NOFILE → Option (Fin NFILE)) : copyFds [] src dst = dst := by
  funext fd
  simp [copyFds]

theorem copyFds_none {fds : List (Fin NOFILE)} (h : src fd = none) :
    copyFds (fd :: fds) src dst = copyFds fds src dst := by
  funext fd'
  by_cases hfd : fd' = fd
  · simp [copyFds, hfd, h]
  · simp [copyFds, hfd]

theorem copyFds_some {fds : List (Fin NOFILE)} {f : Fin NFILE} (h : src fd = some f) :
    copyFds (fd :: fds) src dst = copyFds fds src (Function.update dst fd (some f)) := by
  funext fd'
  by_cases hfd : fd' = fd
  · simp [copyFds, hfd, h]
  · simp [copyFds, hfd]

/-- The loop over the open files changes those of the child only. -/
theorem forkFiles_exact {fds : List (Fin NOFILE)} (hne : p ≠ np) :
    wp (forkFiles p np fds) (fun _ s' => ∃ o, o = copyFds fds (s.proc p).ofile (s.proc np).ofile ∧
      s'.kern = s.kern ∧ s'.proc = Function.update s.proc np { s.proc np with ofile := o })
      (fun _ => True) s := by
  induction fds generalizing s with
  | nil =>
      rw [copyFds_nil]
      exact ⟨_, rfl, rfl, (Function.update_eq_self _ _).symm⟩
  | cons fd fds ih =>
      rw [forkFiles, wp_bind, wp_get]
      cases hof : (s.proc p).ofile fd with
      | none =>
          rw [copyFds_none hof]
          exact ih
      | some f =>
          simp only
          rw [wp_bind, filedup, wp_bind, wp_get, copyFds_some hof]
          split
          · trivial
          · rw [wp_modifyFile, wp_bind, wp_modifyProc]
            refine wp.mono ih ?_
            rintro _ s' ⟨o, ho, hk, hp⟩
            rw [setProc_proc_of_ne _ _ hne, setProc_proc] at ho
            refine ⟨o, ho, hk, ?_⟩
            rw [hp, setProc_proc]
            exact Function.update_idem _ _ _

theorem copyFds_all (src : Fin NOFILE → Option (Fin NFILE)) (h : ∀ fd, dst fd = none) :
    copyFds (List.finRange NOFILE) src dst = src := by
  funext fd
  by_cases hs : src fd = none
  · simp [copyFds, hs, h fd]
  · simp [copyFds, hs]

/-- The trapframe of the child. -/
theorem copyTrapframe_exact {tf src : Nat} :
    wp (copyTrapframe tf src) (fun _ k' => ∃ pg : Page, k' = k.set tf pg ∧
      pg.getLe trapframeA0 8 = 0 ∧ ∀ o < trapframeSize, o < trapframeA0 ∨ trapframeA0 + 8 ≤ o →
        pg.get o = (k.mem src).get o) E k := by
  rw [copyTrapframe, wp_bind, wp_get, wp_bind, wp_storeBytes, wp_storeField, Heap.set_set,
    Heap.mem_set_self]
  refine ⟨_, rfl, ?_, fun o ho hout => ?_⟩
  · rw [Bytes.Region.getLe_setLe _ _ (by decide)]
    rfl
  · have hle : trapframeSize ≤ PGSIZE := by decide
    rw [Bytes.Region.setLe, Bytes.Region.get_write_of_disjoint _ _ _ (by simpa using hout),
      Bytes.Region.get_write _ _ _ (by omega), if_pos (Nat.zero_le o), Bytes.Region.getElem?_read]
    simp [ho]

/-! ## The pages of parent and child -/

section

variable {s₁ : Sys n} {pg : Page} (h : Inv g safe rest pipes hand s)
variable (h₁ : Inv g safe rest pipes hand s₁) (ha : Allocated s s₁ np)
variable (hp : (s.proc p).state ≠ .unused) {a : Nat}

include ha hp in
theorem Allocated.ne : p ≠ np := fun he => hp (he ▸ ha.unused)

include ha in
theorem Allocated.npages_zero : npages (s₁.proc np).sz = 0 := by
  rw [ha.sz]
  rfl

include h₁ ha in
theorem Allocated.live : (s₁.proc np).trapframe ≠ 0 ∧ (s₁.proc np).pagetable ≠ 0 :=
  (h₁.procs np).live (by rw [ha.used]; decide)

include h₁ ha in
theorem Allocated.pages :
    (s₁.proc np).pages s₁.kern.mem =
      (s₁.proc np).trapframe :: space s₁.kern.mem (s₁.proc np).pagetable 0 := by
  obtain ⟨htf, hpt⟩ := ha.live h₁
  rw [Proc.pages_eq htf hpt, ha.npages_zero]

include h ha in
/-- The pages of the parent are as they were. -/
theorem Allocated.mem_eq (hm : a ∈ (s.proc p).pages s.kern.mem) : s₁.kern.mem a = s.kern.mem a :=
  ha.turns.mem_eq (C := (s.proc p).pages s.kern.mem) (h.owned_proc p).left hm

include h ha hp in
/-- The pages of the parent are not those of the child. -/
theorem Allocated.mem_other (hm : a ∈ (s.proc p).pages s.kern.mem) :
    a ∈ rest ++ (pipes ++ otherPages s₁.kern.mem s₁.proc np) := by
  have hne := ha.ne hp
  refine List.mem_append_right _ (List.mem_append_right _ (mem_otherPages hne ?_))
  rw [ha.others p hne, Proc.pages_congr fun a ha' => ha.mem_eq h (List.mem_append_right _ ha')]
  exact hm

include h₁ ha in
theorem Allocated.owned :
    Owned g.IsPage s₁.kern (space s₁.kern.mem (s₁.proc np).pagetable 0 ++
      ((s₁.proc np).trapframe :: (rest ++ (pipes ++ otherPages s₁.kern.mem s₁.proc np)))) := by
  have ho := h₁.owned_proc np
  rw [ha.pages h₁] at ho
  exact ho.of_perm List.perm_middle

include h₁ ha in
/-- All pages of the child together, after code that works on its address space. -/
theorem Allocated.all {m : Nat}
    (ht : Turns s₁.kern k (space s₁.kern.mem (s₁.proc np).pagetable 0)
      (space k.mem (s₁.proc np).pagetable m)) :
    Turns s.kern k [] ((s₁.proc np).trapframe :: space k.mem (s₁.proc np).pagetable m) := by
  have ht₁ := ha.turns
  rw [ha.pages h₁] at ht₁
  exact ht₁.trans (ht.frame_left [(s₁.proc np).trapframe])

include h h₁ ha hp in
/-- The pages are copied, the registers stored and the fields of the child set. -/
theorem Allocated.forked
    (ht : Turns s₁.kern k (space s₁.kern.mem (s₁.proc np).pagetable 0)
      (space k.mem (s₁.proc np).pagetable (npages (s.proc p).sz)))
    (hcopy : ∀ v < npages (s.proc p).sz,
      PageCopy s₁.kern.mem (s.proc p).pagetable k.mem (s₁.proc np).pagetable v)
    (ha0 : pg.getLe trapframeA0 8 = 0)
    (hregs : ∀ o < trapframeSize, o < trapframeA0 ∨ trapframeA0 + 8 ≤ o →
      pg.get o = (k.mem (s.proc p).trapframe).get o)
    (hkern : s'.kern = k.set (s₁.proc np).trapframe pg) (hpar : s'.proc p = s.proc p)
    (hchild : s'.proc np = { s₁.proc np with
      sz := (s.proc p).sz, ofile := (s.proc p).ofile, cwd := (s.proc p).cwd, parent := some p,
      state := .runnable }) : Forked s s' p np := by
  have ho := (ha.owned h₁).turns (ht.frame _)
  have hne : (s₁.proc np).trapframe ∉ space k.mem (s₁.proc np).pagetable
      (npages (s.proc p).sz) ++ (rest ++ (pipes ++ otherPages s₁.kern.mem s₁.proc np)) :=
    (List.nodup_cons.mp (List.perm_middle.nodup_iff.mp ho.nodup_left)).1
  have hset : ∀ a, a ≠ (s₁.proc np).trapframe → s'.kern.mem a = k.mem a := fun a ha => by
    rw [hkern]
    exact Heap.mem_set_of_ne _ _ ha
  have hframe : s'.kern.mem (s₁.proc np).trapframe = pg := by rw [hkern, Heap.mem_set_self]
  have hkept : Kept k.mem s'.kern.mem (s₁.proc np).pagetable (npages (s.proc p).sz) :=
    .of_same fun a ha => hset a fun he => hne (he ▸ List.mem_append_left _ ha)
  have hmem : ∀ a ∈ (s.proc p).pages s.kern.mem, k.mem a = s.kern.mem a := fun a hm => by
    rw [← ha.mem_eq h hm]
    exact ht.mem_eq (ha.owned h₁) (List.mem_cons_of_mem _ (ha.mem_other h hp hm))
  have hpg := Proc.pages_eq (m := s.kern.mem) ((h.procs p).live hp).1 ((h.procs p).live hp).2
  have hold : Kept s.kern.mem s₁.kern.mem (s.proc p).pagetable (npages (s.proc p).sz) :=
    .of_same fun a hm => ha.mem_eq h (hpg ▸ List.mem_cons_of_mem _ hm)
  have hfree : ∀ v < npages (s.proc p).sz,
      PTE2PA (entry k.mem (s₁.proc np).pagetable v) ∈ s.kern.frees := fun v hv =>
    (ha.all h₁ ht).perm.mem_iff.mp (List.mem_append_left _ (List.mem_cons_of_mem _
      (List.mem_append_right _ (mem_targets hv))))
  refine ⟨⟨ha.unused, by rw [hchild]⟩, by rw [hchild], fun v hv => ?_, fun v hv => ?_, ?_,
    fun o h1 h2 => ?_, by rw [hchild], by rw [hchild], hpar, fun a hm => ?_⟩
  · rw [hchild]
    exact .of_kept hold ((hcopy v hv).kept hkept hv) hv
  · rw [hchild, hkept.entry v hv]
    exact ⟨hfree v hv, fun hm => (h.owned_proc p).left.not_free hm (hfree v hv)⟩
  · rw [hchild, hframe]
    exact ha0
  · rw [hchild, hframe, hregs o h1 h2, hmem _ (hpg ▸ List.mem_cons_self)]
  · rw [hset a fun he => hne (he ▸ List.mem_append_right _ (ha.mem_other h hp hm)), hmem a hm]

end

/-! ## `fork` -/

/-- `fork` makes a copy of the process, or leaves everything as it was.  It fails only if there is no
free slot, or not enough pages for a trapframe, a page table and the copies. -/
theorem fork_copies {i : Fin NINODE} {w : World n}
    (h : Inv g (fun _ _ => False) rest pipes [] w.sys) (hp : (w.sys.proc p).state ≠ .unused)
    (hcwd : (w.sys.proc p).cwd = some i) :
    wp (forkRefs g p) (fun r w' =>
      (∃ np, r = w.sys.nextpid ∧ Forked w.sys w'.sys p np ∧
        w'.iref = Function.update w.iref i (w.iref i + 1)) ∨
      r = -1 ∧ Undone w.sys w'.sys ∧ w'.sys.kern.frees.Perm w.sys.kern.frees ∧
        w'.iref = w.iref ∧ ((∀ q, (w.sys.proc q).state ≠ .unused) ∨
          w.sys.kern.frees.length < 6 + 3 * npages (w.sys.proc p).sz)) E w := by
  obtain ⟨s, iref⟩ := w
  simp only at h hp hcwd ⊢
  rw [forkRefs, wp_bind, onSys, wp_zoom]
  refine (allocproc_spec h fun _ _ => id).mono ?_
  rintro r s₁ ⟨h₁, hundo, hr⟩
  cases r with
  | none =>
      obtain ⟨hu, hwhy⟩ := hundo rfl
      exact .inr ⟨rfl, hu, hu.frees.perm, rfl, hwhy.imp_right fun hlt => by omega⟩
  | some np =>
      have ha := hr np rfl
      have hne := ha.ne hp
      have hpp := ha.others p hne
      have hz := ha.npages_zero
      obtain ⟨htfn, hptn⟩ := ha.live h₁
      have hptp := ((h.procs p).live hp).2
      have hspn := (h₁.procs np).space hptn
      have hspp := (h₁.procs p).space (by rw [hpp]; exact hptp)
      have hosp := h₁.owned_two hne
      rw [Proc.tables_eq hptn, Proc.tables_eq (by rw [hpp]; exact hptp), hz] at hosp
      rw [hz] at hspn
      rw [hpp] at hspp hosp
      rw [wp_bind, onSys, wp_zoom, wp_get]
      simp only [World.setSys, hpp]
      rw [wp_bind, onSys, wp_zoom, wp_onKern]
      refine (uvmcopy_spec hspp hspn hosp).mono ?_
      rintro r k (⟨rfl, hs', ht, hcopy⟩ | ⟨rfl, hlt, hs', ht⟩)
      · rw [if_neg (by decide), wp_bind, onSys, wp_zoom, wp_modifyProc]
        have h₂ : Inv g (fun _ _ => False) rest pipes []
            ((s₁.setKern k).setProc np { s₁.proc np with sz := (s.proc p).sz }) :=
          h₁.resize (by rw [ha.used]; decide) hs' (by rw [hz]; exact ht)
        rw [wp_bind, onSys, wp_zoom, wp_onKern]
        refine ((copyTrapframe_spec (p := np) h₂ (by simp [ha.used]) (by simp)).and
          copyTrapframe_exact).mono ?_
        rintro _ k₃ ⟨h₃, pg, rfl, ha0, hregs⟩
        rw [wp_bind, onSys, wp_zoom]
        refine ((forkFiles_spec h₃ (List.nodup_finRange _) (by simp [ha.used])
          (by simp [ha.ofile])).and_returns (forkFiles_exact hne)).mono ?_
        rintro _ s₄ ⟨-, o, ho, hk₄, hproc₄⟩
        have hpar : s₄.proc p = s.proc p := by
          rw [hproc₄, Function.update_of_ne hne, ← hpp]
          exact setProc_proc_of_ne _ _ hne
        have hnp : s₄.proc np = { s₁.proc np with
            sz := (s.proc p).sz, ofile := (s.proc p).ofile } := by
          rw [setProc_setKern, setProc_proc_of_ne _ _ hne, setProc_proc] at ho
          simp only [setKern_proc, hpp, copyFds_all _ ha.ofile] at ho
          rw [hproc₄, Function.update_self, ho]
          simp
        simp only [hcwd, wp_bind, idup, wp_modify, onSys, wp_zoom, wp_modifyProc, World.setSys,
          setProc_setProc, setProc_proc, wp_pure]
        refine .inl ⟨np, ha.pid, ha.forked h h₁ hp ht hcopy ha0 hregs hk₄ ?_ ?_, trivial⟩
        · rw [setProc_proc_of_ne _ _ hne, hpar]
        · rw [setProc_proc, hnp, hcwd]
      · have hall := ha.all h₁ ht
        rw [if_pos (by decide), wp_bind, onSys, wp_zoom]
        refine (freeproc_spec (s := s₁.setKern k) (p := np) rfl ?_ fun _ => ?_).mono ?_
        · rw [setKern_proc, Proc.pages_eq htfn hptn, hz]
          exact (h.owned.of_perm (.refl ([] ++ _))).left.turns hall
        · rw [setKern_proc, hz]
          exact hs'
        · rintro _ s₃ ⟨k', rfl, ht'⟩
          rw [setKern_proc, Proc.pages_eq htfn hptn, hz] at ht'
          have hback := hall.trans ht'
          have := ha.length
          exact .inr ⟨rfl, .cleared ha.unused ha.others ha.file hback, hback.perm, rfl,
            .inr (by omega)⟩

/-- The first process has a child with pid 2. -/
theorem fork_copies_boot : ∃ taken s₀ i w' np, bootZeroed smallLayout = .ok (taken, s₀) ∧
    (s₀.proc 0).cwd = some i ∧ forkRefs smallLayout 0 ⟨s₀, fun _ => 1⟩ = .ok (2, w') ∧
    Forked s₀ w'.sys 0 np ∧ w'.iref = Function.update (fun _ => 1) i 2 := by
  obtain ⟨taken, s₀, hb, ⟨pipes, hg⟩, hst, hc, htwo⟩ : ∃ taken s₀,
      bootZeroed smallLayout = .ok (taken, s₀) ∧ Good smallLayout (fun _ _ => False) taken s₀ ∧
      (s₀.proc 0).state ≠ .unused ∧ (s₀.proc 0).cwd.isSome ∧ wp (forkRefs smallLayout 0)
        (fun r _ => r = 2) (fun _ => False) ⟨s₀, fun _ => 1⟩ :=
    exists_boot_of_check (by decide +kernel)
  obtain ⟨i, hi⟩ := Option.isSome_iff_exists.mp hc
  obtain ⟨r, w', hrun, hfork, rfl⟩ :=
    ((fork_copies (w := ⟨s₀, fun _ => 1⟩) hg hst hi).and htwo).returns
  rcases hfork with ⟨np, -, hforked, hiref⟩ | ⟨hneg, -⟩
  · exact ⟨taken, s₀, i, w', np, hb, hi, hrun, hforked, hiref⟩
  · cases hneg

/-! ## `sys_pipe` -/

/-- In every state of the system and for every address, a call of `sys_pipe` that returns -1
leaves the descriptors of all processes, the numbers of references and the types of all files,
and the set of free pages as they were.  No call stops. -/
theorem pipe_undone (h : Inv g safe rest pipes [] s) (h1 : (s.proc p).state ≠ .unused)
    (h2 : (s.proc p).state ≠ .zombie) (fdarray : Nat) :
    wp (sys_pipe g p fdarray) (fun r s' => r = -1 → AsBefore s s') E s :=
  (sys_pipe_spec h h1 h2 fdarray).mono fun _ _ hu => hu.2

/-- The first process has no memory where it wants the descriptors. -/
theorem pipe_undone_boot : ∃ taken s₀,
    bootZeroed smallLayout = .ok (taken, s₀) ∧
      (s₀.proc 0).state = .runnable ∧
      wp (sys_pipe smallLayout 0 MAXVA) (fun r s' => r = -1 ∧ AsBefore s₀ s') (fun _ => False)
        s₀ := by
  obtain ⟨taken, s₀, hb, ⟨pipes, hg⟩, hst, hfail⟩ : ∃ taken s₀,
      bootZeroed smallLayout = .ok (taken, s₀) ∧ Good smallLayout (fun _ _ => False) taken s₀ ∧
      (s₀.proc 0).state = .runnable ∧
      wp (sys_pipe smallLayout 0 MAXVA) (fun r _ => r = -1) (fun _ => False) s₀ :=
    exists_boot_of_check (by decide +kernel)
  have hundo := pipe_undone (E := fun _ => False) hg (p := 0) (by rw [hst]; decide)
    (by rw [hst]; decide) MAXVA
  exact ⟨taken, s₀, hb, hst, (hfail.and hundo).mono fun r s' h => ⟨h.1, h.2 h.1⟩⟩

end Xv6.Vm
