import Xv6.Vm.Image
import Xv6.Vm.Undo

/-!
# The life of a process

`fork`, `exec`, `exit`, `wait` and `kill` keep the pages in order.
-/

namespace Xv6.Vm

open Hoare FreeList RefCount

variable {n : Nat} {g : Layout} {safe : Fin n → Int → Prop} {s s' : Sys n} {k : Machine}
variable {E : Panic → Prop} {m m' : Nat → Page} {rest pipes X Y A : List Nat}
variable {hand hand' : List (Fin NFILE)} {p pp np : Fin n} {q : Proc n} {f : Fin NFILE}
variable {fd : Fin NOFILE} {sz va tf v pt : Nat}

/-! ## `fork` -/

section

variable (h : Inv g safe rest pipes hand s) (hp : (s.proc p).state ≠ .unused)

include h hp

/-- A store to the trapframe of a process. -/
theorem Inv.writeFrame (pg : Page) :
    Inv g safe rest pipes hand (s.setKern (s.kern.set (s.proc p).trapframe pg)) := by
  have hok := h.procs p
  obtain ⟨htf, hpt⟩ := hok.live hp
  have ho := h.owned_proc p
  rw [Proc.pages, Proc.frames_eq htf, List.append_assoc] at ho
  have ht := ho.left.write List.mem_cons_self pg
  have htab : ∀ a ∈ (s.proc p).tables s.kern.mem,
      (s.kern.set (s.proc p).trapframe pg).mem a = s.kern.mem a :=
    fun a ha => ht.mem_eq ho (List.mem_append_left _ ha)
  have hset := Inv.setProc (X := []) (Y := []) (q := s.proc p) h
    (k := s.kern.set (s.proc p).trapframe pg) ?_ (hok.congr htab) (held_update_of_same rfl)
  · rwa [setKern_setProc_self] at hset
  · rw [List.nil_append, List.nil_append, Proc.pages, Proc.pages, Proc.tables_congr htab,
      Proc.frames_eq htf]
    exact ht.frame _

theorem storeTrapframe_spec {off : Nat} (htf : (s.proc p).trapframe = tf) :
    wp (storeField tf off 8 v) (fun _ k => Inv g safe rest pipes hand (s.setKern k)) E s.kern := by
  subst htf
  exact h.writeFrame hp _

theorem copyTrapframe_spec {src : Nat} (htf : (s.proc p).trapframe = tf) :
    wp (copyTrapframe tf src)
      (fun _ k => Inv g safe rest pipes hand (s.setKern k)) E s.kern := by
  subst htf
  rw [copyTrapframe, wp_bind, wp_get, wp_bind, wp_storeBytes, wp_storeField]
  have h₁ := h.writeFrame hp
    ((s.kern.mem (s.proc p).trapframe).write 0 ((s.kern.mem src).read 0 trapframeSize))
  exact h₁.writeFrame (s := s.setKern _) hp _

end

theorem forkFiles_spec {fds : List (Fin NOFILE)} (h : Inv g safe rest pipes [] s)
    (hnd : fds.Nodup) (hst : (s.proc np).state = .used)
    (hfree : ∀ fd ∈ fds, (s.proc np).ofile fd = none) :
    wp (forkFiles p np fds) (fun _ s' => Inv g safe rest pipes [] s' ∧
      (s'.proc np).state = .used) E s := by
  induction fds generalizing s with
  | nil => exact ⟨h, hst⟩
  | cons fd fds ih =>
      obtain ⟨hfd, hnd⟩ := List.nodup_cons.mp hnd
      have hfree' := fun fd' hf => hfree fd' (List.mem_cons_of_mem _ hf)
      rw [forkFiles, wp_bind, wp_get]
      cases hof : (s.proc p).ofile fd with
      | none => exact ih h hnd hst hfree'
      | some f =>
          simp only
          rw [wp_bind]
          refine (filedup_inv h hof).mono ?_
          rintro _ s₁ ⟨h₁, hproc⟩
          rw [wp_bind, wp_modifyProc]
          have hst₁ : (s₁.proc np).state = .used := by rw [hproc, hst]
          have hfree₁ : (s₁.proc np).ofile fd = none := by
            rw [hproc]
            exact hfree fd List.mem_cons_self
          refine ih (h₁.putFd hfree₁ (by simp [hst₁]) (by simp [hst₁])) hnd (by simp [hst₁]) ?_
          intro fd' hf
          have hne : fd' ≠ fd := fun he => hfd (he ▸ hf)
          simpa [Proc.setOfile, hne, hproc] using hfree' fd' hf

/-- The address spaces of two processes are owned side by side. -/
theorem Inv.owned_two (h : Inv g safe rest pipes hand s) (hne : p ≠ np) :
    Owned g.IsPage s.kern ((s.proc np).tables s.kern.mem ++ (s.proc p).tables s.kern.mem) := by
  have hmem : p ∈ (List.finRange n).erase np :=
    (List.nodup_finRange n).mem_erase_iff.mpr ⟨hne, List.mem_finRange p⟩
  have hp := flatMap_perm_erase (f := fun p => (s.proc p).pages s.kern.mem) hmem
  have ho := h.owned_proc np
  refine (ho.of_perm (B := _ ++ ((s.proc np).frames ++ (rest ++ (pipes ++ ((s.proc p).frames ++
    (((List.finRange n).erase np).erase p).flatMap fun p => (s.proc p).pages s.kern.mem))))) ?_).left
  rw [List.perm_iff_count] at hp ⊢
  intro a
  have ha := hp a
  simp only [Proc.pages, otherPages, List.count_append] at ha ⊢
  omega

/-- Fields of a process in use that `Inv` does not depend on. -/
theorem Inv.setFields (h : Inv g safe rest pipes hand s) (hu : (s.proc p).state ≠ .unused)
    (hq : q.trapframe = (s.proc p).trapframe ∧ q.pagetable = (s.proc p).pagetable ∧
      q.sz = (s.proc p).sz ∧ q.ofile = (s.proc p).ofile ∧ q.pid = (s.proc p).pid ∧
      q.killed = (s.proc p).killed)
    (hu' : q.state ≠ .unused)
    (hz : q.state = .zombie → q.cwd = none ∧ ∀ fd, q.ofile fd = none) :
    Inv g safe rest pipes hand (s.setProc p q) := by
  obtain ⟨h1, h2, h3, h4, h5, h6⟩ := hq
  have hok := h.procs p
  refine Inv.setProc (X := []) (Y := []) (k := s.kern) h ?_ ⟨fun hc => absurd hc hu', hz, ?_, ?_, ?_⟩
    (held_update_of_same h4)
  · rw [Proc.pages, Proc.pages, Proc.frames, Proc.frames, Proc.tables, Proc.tables, h1, h2, h3]
    exact (h.owned_proc p).left.refl
  · rw [h1, h2]
    exact fun _ => hok.live hu
  · rw [h1, h2, h3]
    exact hok.space
  · rw [h5, h6]
    exact hok.calm

theorem fork_spec (h : Inv g safe rest pipes [] s) (hp : (s.proc p).state ≠ .unused)
    (hsafe : ∀ p c, safe p c → safe p 0) :
    wp (fork g p) (fun _ s' => Inv g safe rest pipes [] s') E s := by
  rw [fork, wp_bind]
  refine (allocproc_spec h hsafe).mono ?_
  rintro r s₁ ⟨h₁, -, hr⟩
  cases r with
  | none => exact h₁
  | some np =>
      obtain ⟨hun, hst, hsz, hcwd, hof, -, hother, -⟩ := hr np rfl
      have hne : p ≠ np := fun he => hp (he ▸ hun)
      have hp₁ : (s₁.proc p).state ≠ .unused := by rwa [hother p hne]
      have hnp₁ : (s₁.proc np).state ≠ .unused := by simp [hst]
      have hptp := ((h₁.procs p).live hp₁).2
      have hptn := ((h₁.procs np).live hnp₁).2
      have hspn := (h₁.procs np).space hptn
      have hz : npages (s₁.proc np).sz = 0 := by rw [hsz]; rfl
      have ho : Owned g.IsPage s₁.kern (space s₁.kern.mem (s₁.proc np).pagetable 0 ++
          space s₁.kern.mem (s₁.proc p).pagetable (npages (s₁.proc p).sz)) := by
        have ho := h₁.owned_two hne
        rwa [Proc.tables_eq hptn, Proc.tables_eq hptp, hz] at ho
      rw [hz] at hspn
      rw [wp_bind, wp_get]
      simp only
      rw [wp_bind, wp_onKern]
      refine (uvmcopy_spec ((h₁.procs p).space hptp) hspn ho).mono ?_
      rintro r k (⟨rfl, hs', ht, -⟩ | ⟨rfl, -, hs', ht⟩)
      · rw [if_neg (by decide), wp_bind, wp_modifyProc]
        have h₂ : Inv g safe rest pipes []
            ((s₁.setKern k).setProc np { s₁.proc np with sz := (s₁.proc p).sz }) :=
          h₁.resize hnp₁ hs' (by rw [hz]; exact ht)
        rw [wp_bind, wp_onKern]
        refine (copyTrapframe_spec (p := np) h₂ (by simp [hst]) (by simp)).mono ?_
        intro _ k₃ h₃
        rw [wp_bind]
        refine (forkFiles_spec h₃ (List.nodup_finRange _) (by simp [hst]) (by simp [hof])).mono ?_
        rintro _ s₄ ⟨h₄, hst₄⟩
        simp only [wp_bind, wp_modifyProc, wp_pure, setProc_setProc, setProc_proc]
        exact h₄.setFields (by simp [hst₄]) ⟨rfl, rfl, rfl, rfl, rfl, rfl⟩ (by simp) (by simp)
      · rw [if_pos (by decide), wp_bind]
        have h₂ : Inv g safe rest pipes []
            ((s₁.setKern k).setProc np { s₁.proc np with sz := 0 }) :=
          h₁.resize hnp₁ hs' (by rw [hz]; exact ht)
        have he : { s₁.proc np with sz := 0 } = s₁.proc np := by rw [← hsz]
        rw [he, setKern_setProc_self] at h₂
        exact (freeproc_inv (p := np) h₂ hcwd hof).mono fun _ _ h' => h'

/-! ## `exit`, `wait` and `kill` -/

/-- The loop closes the descriptors and changes nothing else of the process. -/
theorem exitFiles_spec {fds : List (Fin NOFILE)} (h : Inv g safe rest pipes [] s) :
    wp (exitFiles g p fds) (fun _ s' => (∃ pipes, Inv g safe rest pipes [] s') ∧
      (s'.proc p).state = (s.proc p).state ∧
      ∀ fd, fd ∈ fds ∨ (s.proc p).ofile fd = none → (s'.proc p).ofile fd = none) E s := by
  induction fds generalizing s pipes with
  | nil => exact ⟨⟨pipes, h⟩, rfl, fun fd hfd => hfd.resolve_left (by simp)⟩
  | cons fd fds ih =>
      rw [exitFiles, wp_bind, wp_get]
      cases hof : (s.proc p).ofile fd with
      | none =>
          refine (ih h).mono ?_
          rintro _ s' ⟨h', hst, hfd⟩
          refine ⟨h', hst, fun fd' hfd' => hfd fd' ?_⟩
          rcases hfd' with hm | hn
          · rcases List.mem_cons.mp hm with rfl | hm
            · exact .inr hof
            · exact .inl hm
          · exact .inr hn
      | some f =>
          simp only
          rw [wp_bind]
          have ht := h.takeFd hof
          -- the descriptor is cleared after `fileclose`, which does not see it
          have hf := ht.files
          rw [held_cons] at hf
          refine (fileclose_spec (s := s) hf h.owned_pipes).mono ?_
          rintro _ s₁ ⟨hfo, pipes₁, ht₁, hf₁⟩
          rw [wp_bind, wp_modifyProc]
          have h₁ : Inv g safe rest pipes₁ []
              (s₁.setProc p ((s₁.proc p).setOfile fd none)) := by
            refine ht.setFiles ⟨?_, hfo.nextpid, hfo.initproc⟩ ht₁ hf₁
            simp [Sys.setProc, hfo.proc]
          refine (ih h₁).mono ?_
          rintro _ s' ⟨h', hst, hfd⟩
          refine ⟨h', ?_, fun fd' hfd' => hfd fd' ?_⟩
          · rw [hst, setProc_proc, setOfile_state, hfo.proc]
          · by_cases he : fd' = fd
            · right
              simp [Proc.setOfile, he]
            · rcases hfd' with hm | hn
              · exact .inl ((List.mem_cons.mp hm).resolve_left he)
              · right
                simpa [Proc.setOfile, he, hfo.proc] using hn

/-- `wakeup` changes states only, and not that of its caller. -/
theorem wakeup_spec {chan : Option (Fin n)} (h : Inv g safe rest pipes hand s) :
    wp (wakeup p chan) (fun _ s' => Inv g safe rest pipes hand s' ∧ s'.initproc = s.initproc ∧
      s'.proc p = s.proc p) E s := by
  refine ⟨h.map (fun pp => ?_) (fun pp => ?_) (fun pp => ?_), rfl, ?_⟩
  · split <;> exact ⟨rfl, rfl, rfl⟩
  · split <;> rfl
  · have hok := h.procs pp
    split
    · next hc =>
        have hl := hok.live (by rw [hc.2.1]; decide)
        exact ⟨nofun, nofun, fun _ => hl, hok.space, hok.calm⟩
    · exact hok
  · exact if_neg fun hc => hc.1 rfl

theorem reparent_spec {pps : List (Fin n)} (h : Inv g safe rest pipes hand s) :
    wp (reparent p pps) (fun _ s' => Inv g safe rest pipes hand s' ∧
      (s'.proc p).state = (s.proc p).state ∧ (s'.proc p).cwd = (s.proc p).cwd ∧
      (s'.proc p).ofile = (s.proc p).ofile) E s := by
  induction pps generalizing s with
  | nil => exact ⟨h, rfl, rfl, rfl⟩
  | cons pp pps ih =>
      rw [reparent, wp_bind, wp_get, wp_bind]
      by_cases hc : (s.proc pp).parent = some p
      · rw [wp_whenever_pos hc, wp_bind, wp_modifyProc]
        have hu : (s.proc pp).state ≠ .unused := fun hu => by
          rw [((h.procs pp).clean hu).parent] at hc
          cases hc
        have h₁ : Inv g safe rest pipes hand
            (s.setProc pp { s.proc pp with parent := s.initproc }) :=
          h.setFields hu ⟨rfl, rfl, rfl, rfl, rfl, rfl⟩ hu (h.procs pp).ended
        refine (wakeup_spec h₁).mono ?_
        rintro _ s₂ ⟨h₂, -, hp₂⟩
        refine (ih h₂).mono ?_
        rintro _ s' ⟨h', h1, h2, h3⟩
        rw [hp₂] at h1 h2 h3
        refine ⟨h', ?_⟩
        by_cases he : p = pp
        · subst he
          rw [setProc_proc] at h1 h2 h3
          exact ⟨h1, h2, h3⟩
        · rw [setProc_proc_of_ne _ _ he] at h1 h2 h3
          exact ⟨h1, h2, h3⟩
      · rw [wp_whenever_neg hc]
        exact ih h

theorem exit_spec {status : Int} (h : Inv g safe rest pipes [] s)
    (hp : (s.proc p).state ≠ .unused) (hE : E .initExiting) :
    wp (exit g p status) (fun _ s' => ∃ pipes, Inv g safe rest pipes [] s') E s := by
  rw [exit, wp_bind, wp_get]
  split
  · exact hE
  · rw [wp_bind]
    refine (exitFiles_spec h).mono ?_
    rintro _ s₁ ⟨⟨pipes₁, h₁⟩, hst₁, hof₁⟩
    have hu₁ : (s₁.proc p).state ≠ .unused := by rwa [hst₁]
    have hof : ∀ fd, (s₁.proc p).ofile fd = none := fun fd => hof₁ fd (.inl (List.mem_finRange fd))
    rw [wp_bind, wp_modifyProc, wp_bind]
    have h₂ : Inv g safe rest pipes₁ [] (s₁.setProc p { s₁.proc p with cwd := none }) :=
      h₁.setFields hu₁ ⟨rfl, rfl, rfl, rfl, rfl, rfl⟩ hu₁ fun _ => ⟨rfl, hof⟩
    refine (reparent_spec (p := p) h₂).mono ?_
    rintro _ s₃ ⟨h₃, hst₃, hcwd₃, hof₃⟩
    rw [setProc_proc] at hst₃ hcwd₃ hof₃
    rw [wp_bind, wp_get, wp_bind]
    refine (wakeup_spec h₃).mono ?_
    rintro _ s₄ ⟨h₄, -, hp₄⟩
    rw [wp_modifyProc]
    refine ⟨pipes₁, h₄.setFields ?_ ⟨rfl, rfl, rfl, rfl, rfl, rfl⟩ (by simp) fun _ => ⟨?_, ?_⟩⟩
    · rw [hp₄, hst₃]
      exact hu₁
    · rw [hp₄, hcwd₃]
    · rw [hp₄, hof₃]
      exact hof

theorem wait_spec {addr : Nat} (h : Inv g safe rest pipes [] s)
    (hp : (s.proc p).state ≠ .unused) :
    wp (wait g p addr) (fun _ s' => Inv g safe rest pipes [] s') E s := by
  rw [wait, wp_bind, wp_get]
  cases hfind : (List.finRange n).find? fun pp =>
      (s.proc pp).parent = some p ∧ (s.proc pp).state = .zombie with
  | none =>
      simp only
      split
      · exact h
      · rw [wp_bind, wp_modifyProc]
        exact h.setFields hp ⟨rfl, rfl, rfl, rfl, rfl, rfl⟩ (by simp) (by simp)
  | some pp =>
      have hc : (s.proc pp).parent = some p ∧ (s.proc pp).state = .zombie := by
        simpa using List.find?_some hfind
      obtain ⟨hcwd, hof⟩ := (h.procs pp).ended hc.2
      simp only
      rw [wp_bind, wp_onKern]
      have hcopy : wp (copyoutStatus (s.proc p).pagetable addr (s.proc pp).xstate)
          (fun _ k => Inv g safe rest pipes [] (s.setKern k)) E s.kern := by
        rw [copyoutStatus]
        split
        · exact h
        · exact copyout_proc h hp
      refine hcopy.mono ?_
      intro r k h₁
      split
      · exact h₁
      · rw [wp_bind]
        exact (freeproc_inv (p := pp) h₁ hcwd hof).mono fun _ _ h' => h'

theorem kill_spec {pid : Int} (h : Inv g safe rest pipes hand s) (hsafe : ∀ p, ¬ safe p pid) :
    wp (kill pid) (fun _ s' => Inv g safe rest pipes hand s') E s := by
  rw [kill, wp_bind, wp_get]
  cases hfind : (List.finRange n).find? fun p => (s.proc p).pid = pid with
  | none => exact h
  | some p =>
      have hpid : (s.proc p).pid = pid := by simpa using List.find?_some hfind
      have hok := h.procs p
      rw [wp_bind, wp_modifyProc]
      refine Inv.setProc (X := []) (Y := []) (k := s.kern) h (h.owned_proc p).left.refl
        ⟨fun hu => ?_, fun hz => ?_, fun hl => ?_, hok.space, fun hs => ?_⟩ (held_update_of_same rfl)
      · split at hu
        · cases hu
        · obtain ⟨h1, h2, h3, h4, h5, h6, h7, h8, h9⟩ := hok.clean hu
          exact ⟨h1, h2, h3, h4, h5, h6, h7, h8, h9⟩
      · split at hz
        · cases hz
        · exact hok.ended hz
      · refine hok.live fun hu => hl ?_
        simp [hu]
      · exact absurd (hpid ▸ hs) (hsafe p)

/-- A process that was woken leaves `sleep`. -/
theorem wake_spec (h : Inv g safe rest pipes hand s) (hp : (s.proc p).state ≠ .unused) :
    wp (wake p) (fun _ s' => Inv g safe rest pipes hand s' ∧
      (s'.proc p).state = (s.proc p).state) E s := by
  rw [wake, wp_modifyProc]
  exact ⟨h.setFields hp ⟨rfl, rfl, rfl, rfl, rfl, rfl⟩ hp (h.procs p).ended, by simp⟩

/-! ## `exec` -/

theorem exec_spec {file : Option FileData} {argv : List Nat} (h : Inv g safe rest pipes hand s)
    (hp : (s.proc p).state ≠ .unused) :
    wp (exec g p file argv) (fun _ s' => Inv g safe rest pipes hand s') E s := by
  refine (exec_full h hp).mono ?_
  rintro r s' (⟨-, ⟨k, rfl, ht⟩, -⟩ | ⟨-, ip, -, pt, sz, k, hr, sp, sz', k', -, hc⟩)
  · exact Inv.turn (X := []) (Y := []) h ht
  · exact hc.inv h hp hr.ne_zero

theorem sys_exec_spec {upath uargv : Nat} {namei : Namei} (h : Inv g safe rest pipes hand s)
    (hp : (s.proc p).state ≠ .unused) :
    wp (sys_exec g p upath uargv namei) (fun _ s' => Inv g safe rest pipes hand s') E s := by
  have ho : Owned g.IsPage s.kern ([] ++ (rest ++ (pipes ++ procPages s.kern.mem s.proc))) :=
    h.owned
  rw [sys_exec, wp_bind, wp_get, wp_bind, wp_onKern]
  refine copyinstrLoop_spec.mono ?_
  rintro ⟨r, path⟩ k rfl
  simp only
  split
  · exact h
  · rw [wp_bind, wp_onKern]
    refine (fetchArgs_spec ho).mono ?_
    rintro ⟨found, argv⟩ k₁ ht₁
    have h₁ : Inv g safe (argv ++ rest) pipes hand (s.setKern k₁) := Inv.turn (X := []) h ht₁
    have hexec : wp (execArgs g p (namei path) found argv)
        (fun _ s' => Inv g safe (argv ++ rest) pipes hand s') E (s.setKern k₁) := by
      rw [execArgs]
      split
      · exact exec_spec h₁ hp
      · exact h₁
    simp only
    rw [wp_bind]
    refine hexec.mono ?_
    intro r s₂ h₂
    rw [wp_bind, wp_onKern]
    refine (freeArgs_spec h₂.owned.left).mono ?_
    intro _ k₃ ht₃
    exact h₂.turn (Y := []) ht₃

/-! ## A step -/

/-- Between system calls the kernel holds no references and the pages `taken`. -/
def Good (g : Layout) (safe : Fin n → Int → Prop) (taken : List Nat) (s : Sys n) : Prop :=
  ∃ pipes, Inv g safe taken pipes [] s

/-- A call by a live process keeps the pages in order, and can stop in one panic
only. -/
theorem Op.run_spec {taken : List Nat} {op : Op} (h : Good g safe taken s)
    (hp : (s.proc p).state = .runnable) (hsafe : ∀ p c, safe p c → safe p 0)
    (hkill : ∀ pid, op = .kill pid → ∀ p, ¬ safe p pid) :
    wp (op.run g p) (fun _ s' => Good g safe taken s') (fun e => e = .initExiting) s := by
  obtain ⟨pipes, h⟩ := h
  have hu : (s.proc p).state ≠ .unused := by simp [hp]
  have hz : (s.proc p).state ≠ .zombie := by simp [hp]
  cases op with
  | fork =>
      rw [Op.run, wp_bind]
      exact (fork_spec h hu hsafe).mono fun _ s' h' => ⟨pipes, h'⟩
  | exec upath uargv namei =>
      rw [Op.run, wp_bind]
      exact (sys_exec_spec h hu).mono fun _ s' h' => ⟨pipes, h'⟩
  | sbrk d =>
      rw [Op.run, wp_bind]
      exact (sys_sbrk_spec h hu).mono fun _ s' h' => ⟨pipes, h'⟩
  | exit status => exact exit_spec h hu rfl
  | wait addr =>
      rw [Op.run, wp_bind]
      exact (wait_spec h hu).mono fun _ s' h' => ⟨pipes, h'⟩
  | pipe fdarray =>
      rw [Op.run, wp_bind]
      exact (sys_pipe_spec h hu hz _).mono fun _ _ h' => h'.1
  | close fd =>
      rw [Op.run, wp_bind]
      exact (sys_close_spec h).mono fun _ s' h' => h'
  | kill pid =>
      rw [Op.run, wp_bind]
      exact (kill_spec h (hkill pid rfl)).mono fun _ s' h' => ⟨pipes, h'⟩
  | store va bytes =>
      rw [Op.run, wp_bind, wp_get, wp_bind, wp_onKern]
      exact (copyout_proc h hu).mono fun _ k h' => ⟨pipes, h'⟩
  | resume =>
      rw [Op.run, wp_bind, wp_get]
      cases (s.proc p).waiting with
      | none => exact ⟨pipes, h⟩
      | some addr =>
          simp only
          rw [wp_bind]
          refine (wake_spec h hu).mono ?_
          rintro _ s₁ ⟨h₁, hst⟩
          rw [wp_bind]
          exact (wait_spec h₁ (by rw [hst]; exact hu)).mono fun _ s' h' => ⟨pipes, h'⟩

end Xv6.Vm
