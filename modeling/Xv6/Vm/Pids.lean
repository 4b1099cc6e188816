import Xv6.Vm.Sbrk

/-!
# Process ids

`allocpid` counts in an `int` and looks neither at the range of the counter nor at the
processes.  While the counter is positive at each `fork`, every process has a positive pid
below it, different from the pids of all others.  The counter also moves on when `fork` fails,
and after the largest `int` it is negative.
-/

namespace Xv6.Vm

open Hoare FreeList

variable {n : Nat} {g : Layout} {s s' s'' : Sys n} {p np : Fin n}

/-- A process. -/
def Sys.Alive (s : Sys n) (p : Fin n) : Prop := (s.proc p).state ≠ .unused

instance (s : Sys n) (p : Fin n) : Decidable (s.Alive p) := inferInstanceAs (Decidable (_ ≠ _))

/-- The processes have positive pids, and different ones. -/
structure PidsOk (s : Sys n) : Prop where
  positive : ∀ p, s.Alive p → 0 < (s.proc p).pid
  distinct : ∀ p q, s.Alive p → s.Alive q → (s.proc p).pid = (s.proc q).pid → p = q

/-- The invariant: the counter is above the pids, as long as it is positive. -/
structure PidsBelow (s : Sys n) : Prop extends PidsOk s where
  int : s.nextpid < 2 ^ 31
  below : 0 < s.nextpid → ∀ p, s.Alive p → (s.proc p).pid < s.nextpid

/-! ## Code that makes no process -/

/-- The pids and the counter are the same, and which slots are free, except for the slots of
`X`. -/
structure SamePids (X : List (Fin n)) (s s' : Sys n) : Prop where
  nextpid : s'.nextpid = s.nextpid
  pid : ∀ p, (s'.proc p).pid = (s.proc p).pid
  alive : ∀ p ∉ X, s'.Alive p ↔ s.Alive p

instance (X : List (Fin n)) : Std.Refl (SamePids X) :=
  ⟨fun _ => ⟨rfl, fun _ => rfl, fun _ _ => .rfl⟩⟩

instance (X : List (Fin n)) : IsTrans (Sys n) (SamePids X) where
  trans := fun _ _ _ h h' => ⟨h'.nextpid.trans h.nextpid, fun p => (h'.pid p).trans (h.pid p),
    fun p hp => (h'.alive p hp).trans (h.alive p hp)⟩

variable {X : List (Fin n)} {α : Type} {u : Proc n → Proc n} {pp q : Fin n}

theorem SamePids.of_proc (hp : s'.proc = s.proc) (hn : s'.nextpid = s.nextpid) : SamePids X s s' :=
  ⟨hn, fun p => by rw [hp], fun p _ => by rw [Sys.Alive, hp, Sys.Alive]⟩

theorem onKern_pids (x : Kern α) : Within (SamePids (n := n) X) (onKern x) := by
  intro s
  rw [wp_onKern]
  cases hx : x s.kern with
  | error e => exact (wp_error hx).mpr trivial
  | ok r => exact (wp_ok hx).mpr (.of_proc rfl rfl)

theorem modifyFile_pids (f : Fin NFILE) (u : File → File) :
    Within (SamePids (n := n) X) (modifyFile f u) := fun _ => .of_proc rfl rfl

theorem modifyProc_pids (hpid : ∀ q, (u q).pid = q.pid) (hu : p ∈ X ∨ ∀ q, (u q).state = q.state) :
    Within (SamePids X) (modifyProc p u) := by
  intro s
  have hproc : ∀ r, r ≠ p → (s.setProc p (u (s.proc p))).proc r = s.proc r := fun r hr =>
    Function.update_of_ne hr ..
  have hself : (s.setProc p (u (s.proc p))).proc p = u (s.proc p) := Function.update_self ..
  refine ⟨rfl, fun r => ?_, fun r hr => ?_⟩
  · by_cases h : r = p
    · rw [h, hself, hpid]
    · rw [hproc r h]
  · by_cases h : r = p
    · subst h
      rw [Sys.Alive, hself, hu.resolve_left hr, Sys.Alive]
    · rw [Sys.Alive, hproc r h, Sys.Alive]

theorem filealloc_pids : Within (SamePids (n := n) X) filealloc := by
  unfold filealloc
  refine .bind .get fun s => ?_
  cases (List.finRange NFILE).find? fun f => (s.file f).ref = 0 with
  | none => exact .pure _
  | some f => exact .bind (modifyFile_pids f _) fun _ => .pure _

theorem filedup_pids (f : Fin NFILE) : Within (SamePids (n := n) X) (filedup f) := by
  unfold filedup
  refine .bind .get fun s => ?_
  split
  · exact .throw _
  · exact modifyFile_pids f _

theorem fileclose_pids (f : Fin NFILE) : Within (SamePids (n := n) X) (fileclose g f) := by
  unfold fileclose
  refine .bind .get fun s => ?_
  simp only
  split
  · exact .throw _
  · split
    · exact modifyFile_pids f _
    · refine .bind (modifyFile_pids f _) fun _ => ?_
      cases (s.file f).type with
      | pipe => exact onKern_pids _
      | none | inode | device => exact .pure _

theorem pipealloc_pids : Within (SamePids (n := n) X) (pipealloc g) := by
  unfold pipealloc
  refine .bind filealloc_pids fun r => ?_
  cases r with
  | none => exact .pure _
  | some f0 =>
      refine .bind filealloc_pids fun r => ?_
      cases r with
      | none => exact .bind (fileclose_pids f0) fun _ => .pure _
      | some f1 =>
          refine .bind (onKern_pids _) fun pi => ?_
          split
          · exact .bind (fileclose_pids f0) fun _ => .bind (fileclose_pids f1) fun _ => .pure _
          · exact .bind (onKern_pids _) fun _ => .bind (modifyFile_pids f0 _) fun _ =>
              .bind (modifyFile_pids f1 _) fun _ => .pure _

theorem setOfile_pids (p : Fin n) (fd : Fin NOFILE) (f : Option (Fin NFILE)) :
    Within (SamePids X) (modifyProc p fun q => q.setOfile fd f) :=
  modifyProc_pids (fun _ => rfl) (.inr fun _ => rfl)

theorem fdalloc_pids (p : Fin n) (f : Fin NFILE) : Within (SamePids X) (fdalloc p f) := by
  unfold fdalloc
  refine .bind .get fun s => ?_
  cases (List.finRange NOFILE).find? fun fd => ((s.proc p).ofile fd).isNone with
  | none => exact .pure _
  | some fd => exact .bind (setOfile_pids p fd _) fun _ => .pure _

theorem sys_pipe_pids (p : Fin n) (fdarray : Nat) : Within (SamePids X) (sys_pipe g p fdarray) := by
  have hclose : ∀ rf wf : Fin NFILE, Within (SamePids X)
      (fileclose g rf >>= fun _ => fileclose g wf >>= fun _ => (pure (-1) : SysM n Int)) :=
    fun rf wf => .bind (fileclose_pids rf) fun _ => .bind (fileclose_pids wf) fun _ => .pure _
  unfold sys_pipe
  refine .bind pipealloc_pids fun r => ?_
  cases r with
  | none => exact .pure _
  | some r =>
      refine .bind (fdalloc_pids p r.1) fun x => ?_
      cases x with
      | none => exact hclose _ _
      | some fd0 =>
          refine .bind (fdalloc_pids p r.2) fun x => ?_
          cases x with
          | none => exact .bind (setOfile_pids p fd0 _) fun _ => hclose _ _
          | some fd1 =>
              refine .bind .get fun s => .bind (onKern_pids _) fun r => ?_
              split
              · exact .bind (setOfile_pids p fd0 _) fun _ => .bind (setOfile_pids p fd1 _) fun _ =>
                  hclose _ _
              · exact .pure _

theorem sys_close_pids (p : Fin n) (fd : Int) : Within (SamePids X) (sys_close g p fd) := by
  unfold sys_close
  refine .bind .get fun s => ?_
  split
  · rename_i h
    cases (s.proc p).ofile ⟨fd.toNat, h.2⟩ with
    | none => exact .pure _
    | some f => exact .bind (setOfile_pids p _ _) fun _ => .bind (fileclose_pids f) fun _ => .pure _
  · exact .pure _

theorem growproc_pids (p : Fin n) (k : Int) : Within (SamePids X) (growproc g p k) := by
  have hsz : ∀ sz : Nat, Within (SamePids X)
      (modifyProc p fun q => { q with sz := sz }) := fun sz =>
    modifyProc_pids (fun _ => rfl) (.inr fun _ => rfl)
  unfold growproc
  refine .bind .get fun s => ?_
  simp only
  split
  · refine .bind (onKern_pids _) fun sz => ?_
    split
    · exact .pure _
    · exact .bind (hsz sz) fun _ => .pure _
  · split
    · exact .bind (onKern_pids _) fun sz => .bind (hsz sz) fun _ => .pure _
    · exact .pure _

theorem sys_sbrk_pids (p : Fin n) (k : Int) : Within (SamePids X) (sys_sbrk g p k) := by
  unfold sys_sbrk
  refine .bind .get fun s => .bind (growproc_pids p k) fun r => ?_
  split <;> exact .pure _

theorem exec_pids (p : Fin n) (file : Option FileData) (argv : List Nat) :
    Within (SamePids X) (exec g p file argv) := by
  unfold exec
  cases file with
  | none => exact .pure _
  | some ip =>
      simp only
      split
      · exact .pure _
      split
      · exact .pure _
      refine .bind .get fun s => .bind (onKern_pids _) fun pt => ?_
      split
      · exact .pure _
      refine .bind (onKern_pids _) ?_
      rintro ⟨loaded, sz⟩
      simp only
      split
      · exact .bind (onKern_pids _) fun _ => .pure _
      refine .bind (onKern_pids _) ?_
      rintro ⟨_ | sp, sz⟩
      · exact .bind (onKern_pids _) fun _ => .pure _
      · refine .bind (onKern_pids _) fun _ => .bind ?_ fun _ => .bind (onKern_pids _) fun _ =>
          .bind (onKern_pids _) fun _ => .bind (onKern_pids _) fun _ => .pure _
        exact modifyProc_pids (fun _ => rfl) (.inr fun _ => rfl)

theorem sys_exec_pids (p : Fin n) (upath uargv : Nat) (namei : Namei) :
    Within (SamePids X) (sys_exec g p upath uargv namei) := by
  unfold sys_exec
  refine .bind .get fun s => .bind (onKern_pids _) ?_
  rintro ⟨r, path⟩
  simp only
  split
  · exact .pure _
  · refine .bind (onKern_pids _) ?_
    rintro ⟨found, argv⟩
    refine .bind ?_ fun _ => .bind (onKern_pids _) fun _ => .pure _
    unfold execArgs
    split
    · exact exec_pids p _ _
    · exact .pure _

theorem wakeup_pids (p : Fin n) (chan : Option (Fin n)) : Within (SamePids X) (wakeup p chan) := by
  refine fun s => ⟨rfl, fun r => ?_, fun r _ => ?_⟩
  · show (if _ then _ else _ : Proc n).pid = _
    split <;> rfl
  · show (if _ then _ else _ : Proc n).state ≠ _ ↔ _
    split
    · rename_i h
      rw [Sys.Alive, h.2.1]
      simp
    · rfl

theorem reparent_pids (p : Fin n) (pps : List (Fin n)) : Within (SamePids X) (reparent p pps) := by
  induction pps with
  | nil => exact .pure _
  | cons pp pps ih =>
      unfold reparent
      refine .bind .get fun s => .bind (.whenever (.bind ?_ fun _ => wakeup_pids p _)) fun _ => ih
      exact modifyProc_pids (fun _ => rfl) (.inr fun _ => rfl)

theorem exitFiles_pids (p : Fin n) (fds : List (Fin NOFILE)) :
    Within (SamePids X) (exitFiles g p fds) := by
  induction fds with
  | nil => exact .pure _
  | cons fd fds ih =>
      unfold exitFiles
      refine .bind .get fun s => ?_
      cases (s.proc p).ofile fd with
      | none => exact ih
      | some f => exact .bind (fileclose_pids f) fun _ => .bind (setOfile_pids p fd _) fun _ => ih

theorem exit_pids (p : Fin n) (status : Int) : Within (SamePids [p]) (exit g p status) := by
  unfold exit
  refine .bind .get fun s => ?_
  split
  · exact .throw _
  · refine .bind (exitFiles_pids p _) fun _ => .bind ?_ fun _ => .bind (reparent_pids p _) fun _ =>
      .bind .get fun s => .bind (wakeup_pids p _) fun _ => ?_
    · exact modifyProc_pids (fun _ => rfl) (.inr fun _ => rfl)
    · exact modifyProc_pids (fun _ => rfl) (.inl (List.mem_singleton_self p))

theorem kill_pids (pid : Int) : Within (SamePids (n := n) X) (kill pid) := by
  intro s
  rw [kill, wp_bind, wp_get]
  cases (List.finRange n).find? fun p => (s.proc p).pid = pid with
  | none => exact refl_of (SamePids X) s
  | some p =>
      refine ⟨rfl, fun r => ?_, fun r _ => ?_⟩
      · by_cases h : r = p
        · subst h
          simp [Sys.setProc]
        · simp [Sys.setProc, h]
      · by_cases h : r = p
        · subst h
          simp only [Sys.Alive, Sys.setProc, Function.update_self]
          split
          · rename_i hs
            simp [hs]
          · rfl
        · simp [Sys.Alive, Sys.setProc, h]

/-! ## Code that frees a process -/

/-- The process is gone, and the others are as before. -/
structure Freed (pp : Fin n) (s s' : Sys n) : Prop where
  nextpid : s'.nextpid = s.nextpid
  pid : ∀ p ≠ pp, (s'.proc p).pid = (s.proc p).pid
  alive : ∀ p ≠ pp, s'.Alive p ↔ s.Alive p
  gone : ¬ s'.Alive pp

theorem SamePids.freed (h : SamePids [pp] s s') {q : Proc n} (hq : q.state = .unused) :
    Freed pp s (s'.setProc pp q) := by
  have hproc : ∀ r, r ≠ pp → (s'.setProc pp q).proc r = s'.proc r := fun r hr =>
    Function.update_of_ne hr ..
  refine ⟨h.nextpid, fun r hr => ?_, fun r hr => ?_, fun ha => ha ?_⟩
  · rw [hproc r hr, h.pid]
  · rw [Sys.Alive, hproc r hr]
    exact h.alive r (by simpa using hr)
  · show (Function.update s'.proc pp q pp).state = _
    rw [Function.update_self, hq]

theorem freeproc_pids (pp : Fin n) (s : Sys n) :
    wp (freeproc g pp) (fun _ s' => Freed pp s s') (fun _ => True) s := by
  have htf : Within (SamePids [pp]) (modifyProc pp fun q => { q with trapframe := 0 }) :=
    modifyProc_pids (fun _ => rfl) (.inr fun _ => rfl)
  rw [freeproc, wp_bind, wp_get]
  simp only
  rw [wp_bind]
  refine (Within.whenever (R := SamePids [pp]) (onKern_pids _) s).mono fun _ s₁ h₁ => ?_
  rw [wp_bind]
  refine (htf s₁).mono fun _ s₂ h₂ => ?_
  rw [wp_bind]
  refine (Within.whenever (R := SamePids [pp]) (onKern_pids _) s₂).mono fun _ s₃ h₃ => ?_
  exact (trans_of (SamePids [pp]) (trans_of (SamePids [pp]) h₁ h₂) h₃).freed rfl

/-- The pids after `wait`: a process may be gone, and the caller may sleep. -/
theorem wait_pids (p : Fin n) (addr : Nat) (s : Sys n) :
    wp (wait g p addr) (fun _ s' => SamePids [p] s s' ∨ ∃ pp, Freed pp s s') (fun _ => True) s := by
  rw [wait, wp_bind, wp_get]
  cases (List.finRange n).find? fun pp =>
      (s.proc pp).parent = some p ∧ (s.proc pp).state = .zombie with
  | none =>
      simp only
      split
      · exact .inl (refl_of (SamePids [p]) s)
      · have hsleep : Within (SamePids [p]) (modifyProc p fun q =>
            { q with chan := some p, state := .sleeping, waiting := some addr }) :=
          modifyProc_pids (fun _ => rfl) (.inl (List.mem_singleton_self p))
        exact .inl (hsleep s)
  | some pp =>
      simp only
      rw [wp_bind]
      refine (onKern_pids (X := []) _ s).mono fun r s₁ h₁ => ?_
      split
      · exact .inl ⟨h₁.nextpid, h₁.pid, fun q _ => h₁.alive q (by simp)⟩
      · rw [wp_bind]
        refine (freeproc_pids pp s₁).mono fun _ s₂ h₂ => .inr ⟨pp, ?_⟩
        refine ⟨h₂.nextpid.trans h₁.nextpid, fun q hq => (h₂.pid q hq).trans (h₁.pid q),
          fun q hq => (h₂.alive q hq).trans (h₁.alive q (by simp)), h₂.gone⟩

/-! ## `fork` -/

/-- The counter moved on, and `np` is the only new process, with the old value as its pid. -/
structure Spawned (np : Fin n) (s s' : Sys n) : Prop where
  nextpid : s'.nextpid = Int.bmod (s.nextpid + 1) (2 ^ 32)
  free : ¬ s.Alive np
  pid : ∀ p ≠ np, (s'.proc p).pid = (s.proc p).pid
  alive : ∀ p ≠ np, s'.Alive p ↔ s.Alive p
  new : s'.Alive np → (s'.proc np).pid = s.nextpid

/-- The new process is there and has its pid. -/
structure Fresh (np : Fin n) (s s' : Sys n) : Prop extends Spawned np s s' where
  own : (s'.proc np).pid = s.nextpid

theorem Fresh.same (h : Fresh np s s') (h' : SamePids [np] s' s'') : Fresh np s s'' := by
  have hnew : (s''.proc np).pid = s.nextpid := (h'.pid np).trans h.own
  refine ⟨⟨h'.nextpid.trans h.nextpid, h.free, fun p hp => (h'.pid p).trans (h.pid p hp),
    fun p hp => (h'.alive p ?_).trans (h.alive p hp), fun _ => hnew⟩, hnew⟩
  simpa using hp

/-- Code after the allocation of the pid. -/
theorem Fresh.within {x : SysM n α} (h : Fresh np s s') (hx : Within (SamePids [np]) x) :
    wp x (fun _ s'' => Fresh np s s'') (fun _ => True) s' :=
  (hx s').mono fun _ _ h' => h.same h'

theorem Fresh.update (h : Fresh np s s') (hu : ∀ q, (u q).pid = q.pid) :
    Fresh np s (s'.setProc np (u (s'.proc np))) :=
  h.same (modifyProc_pids hu (.inl (List.mem_singleton_self np)) s')

theorem Spawned.freed (h : Spawned np s s') (h' : Freed np s' s'') : Spawned np s s'' :=
  ⟨h'.nextpid.trans h.nextpid, h.free, fun p hp => (h'.pid p hp).trans (h.pid p hp),
    fun p hp => (h'.alive p hp).trans (h.alive p hp), fun ha => absurd ha h'.gone⟩

/-- The new process is given up. -/
theorem Fresh.freeproc (h : Fresh np s s') :
    wp (Vm.freeproc g np) (fun _ s'' => Spawned np s s'' ∧ ¬ s''.Alive np) (fun _ => True) s' :=
  (freeproc_pids np s').mono fun _ _ h' => ⟨h.toSpawned.freed h', h'.gone⟩

/-- No process was made. -/
def NotSpawned (s s' : Sys n) : Prop := s' = s ∨ ∃ np, Spawned np s s' ∧ ¬ s'.Alive np

theorem allocproc_pids (s : Sys n) :
    wp (allocproc g) (fun r s' => match r with
      | none => NotSpawned s s'
      | some np => Fresh np s s') (fun _ => True) s := by
  rw [allocproc, wp_bind, wp_get]
  cases hf : (List.finRange n).find? fun p => (s.proc p).state = .unused with
  | none => exact .inl rfl
  | some np =>
      have hfree : (s.proc np).state = .unused := by simpa using List.find?_some hf
      simp only
      rw [wp_bind]
      show wp (modifyProc np (fun q => { q with pid := s.nextpid, state := .used }) >>= _) _ _
        { s with nextpid := Int.bmod (s.nextpid + 1) (2 ^ 32) }
      rw [wp_bind, wp_modifyProc]
      have h₁ : Fresh np s (Sys.setProc { s with nextpid := Int.bmod (s.nextpid + 1) (2 ^ 32) } np
          { s.proc np with pid := s.nextpid, state := .used }) := by
        have hproc : ∀ r, r ≠ np → Function.update s.proc np
            { s.proc np with pid := s.nextpid, state := .used } r = s.proc r :=
          fun r hr => Function.update_of_ne hr ..
        have hown : (Function.update s.proc np
            { s.proc np with pid := s.nextpid, state := .used } np).pid = s.nextpid := by
          rw [Function.update_self]
        refine ⟨⟨rfl, fun h => h hfree, fun r hr => ?_, fun r hr => ?_, fun _ => hown⟩, hown⟩
        · exact congrArg Proc.pid (hproc r hr)
        · exact not_congr (Eq.congr (congrArg Proc.state (hproc r hr)) rfl)
      rw [wp_bind]
      refine (h₁.within (onKern_pids kalloc)).mono fun tf s₂ h₂ => ?_
      rw [wp_bind, wp_modifyProc]
      have h₃ := h₂.update (u := fun q => { q with trapframe := tf }) fun _ => rfl
      split
      · rw [wp_bind]
        exact h₃.freeproc.mono fun _ _ h => .inr ⟨np, h⟩
      rw [wp_bind]
      refine (h₃.within (onKern_pids _)).mono fun pt s₄ h₄ => ?_
      rw [wp_bind, wp_modifyProc]
      have h₅ := h₄.update (u := fun q => { q with pagetable := pt }) fun _ => rfl
      split
      · rw [wp_bind]
        exact h₅.freeproc.mono fun _ _ h => .inr ⟨np, h⟩
      · exact h₅.update (u := fun q => { q with waiting := none }) fun _ => rfl

theorem forkFiles_pids (p np : Fin n) (fds : List (Fin NOFILE)) :
    Within (SamePids X) (forkFiles p np fds) := by
  induction fds with
  | nil => exact .pure _
  | cons fd fds ih =>
      unfold forkFiles
      refine .bind .get fun s => ?_
      cases (s.proc p).ofile fd with
      | none => exact ih
      | some f => exact .bind (filedup_pids f) fun _ => .bind (setOfile_pids np fd _) fun _ => ih

/-- `fork` makes a process with the value of the counter as its pid and returns it, or makes
none and returns -1. -/
theorem fork_pids (p : Fin n) (s : Sys n) :
    wp (fork g p) (fun r s' => r = -1 ∧ NotSpawned s s' ∨
      r = s.nextpid ∧ ∃ np, Spawned np s s' ∧ s'.Alive np) (fun _ => True) s := by
  rw [fork, wp_bind]
  refine (allocproc_pids s).mono ?_
  rintro (_ | np) s₁ h₁
  · exact .inl ⟨rfl, h₁⟩
  change Fresh np s s₁ at h₁
  simp only
  rw [wp_bind, wp_get, wp_bind]
  refine (h₁.within (onKern_pids _)).mono fun r s₂ h₂ => ?_
  split
  · rw [wp_bind]
    exact h₂.freeproc.mono fun _ _ h => .inl ⟨rfl, .inr ⟨np, h⟩⟩
  · rw [wp_bind, wp_modifyProc, wp_bind]
    have h₃ := h₂.update (u := fun x => { x with sz := (s₁.proc p).sz }) fun _ => rfl
    refine (h₃.within (onKern_pids _)).mono fun _ s₄ h₄ => ?_
    rw [wp_bind]
    refine (h₄.within (forkFiles_pids p np _)).mono fun _ s₅ h₅ => ?_
    rw [wp_bind, wp_modifyProc, wp_bind, wp_modifyProc, wp_bind, wp_modifyProc]
    have h₆ := h₅.update (u := fun x => { x with cwd := (s₁.proc p).cwd }) fun _ => rfl
    have h₇ := h₆.update (u := fun x => { x with parent := some p }) fun _ => rfl
    have h₈ := h₇.update (u := fun x => { x with state := .runnable }) fun _ => rfl
    refine .inr ⟨h₁.own, np, h₈.toSpawned, ?_⟩
    simp [Sys.Alive, Sys.setProc]

/-! ## Runs -/

theorem SamePids.below (h : SamePids X s s') (hX : ∀ p ∈ X, s.Alive p) (hs : PidsBelow s) :
    PidsBelow s' := by
  have ha : ∀ q, s'.Alive q → s.Alive q := by
    intro q hq
    by_cases hqX : q ∈ X
    · exact hX q hqX
    · exact (h.alive q hqX).mp hq
  refine ⟨⟨fun q hq => ?_, fun q r hq hr he => ?_⟩, h.nextpid ▸ hs.int, fun hn q hq => ?_⟩
  · rw [h.pid]
    exact hs.positive q (ha q hq)
  · rw [h.pid, h.pid] at he
    exact hs.distinct q r (ha q hq) (ha r hr) he
  · rw [h.nextpid] at hn ⊢
    rw [h.pid]
    exact hs.below hn q (ha q hq)

theorem Freed.below (h : Freed pp s s') (hs : PidsBelow s) : PidsBelow s' := by
  have hne : ∀ q, s'.Alive q → q ≠ pp := fun q hq he => h.gone (he ▸ hq)
  have ha : ∀ q, s'.Alive q → s.Alive q := fun q hq => (h.alive q (hne q hq)).mp hq
  refine ⟨⟨fun q hq => ?_, fun q r hq hr he => ?_⟩, h.nextpid ▸ hs.int, fun hn q hq => ?_⟩
  · rw [h.pid q (hne q hq)]
    exact hs.positive q (ha q hq)
  · rw [h.pid q (hne q hq), h.pid r (hne r hr)] at he
    exact hs.distinct q r (ha q hq) (ha r hr) he
  · rw [h.nextpid] at hn ⊢
    rw [h.pid q (hne q hq)]
    exact hs.below hn q (ha q hq)

theorem Spawned.below (h : Spawned np s s') (hs : PidsBelow s) (hn : 0 < s.nextpid) :
    PidsBelow s' := by
  have hpid : ∀ q, s'.Alive q → q = np ∧ (s'.proc q).pid = s.nextpid ∨
      q ≠ np ∧ s.Alive q ∧ (s'.proc q).pid = (s.proc q).pid := by
    intro q hq
    by_cases hqn : q = np
    · subst hqn
      exact .inl ⟨rfl, h.new hq⟩
    · exact .inr ⟨hqn, (h.alive q hqn).mp hq, h.pid q hqn⟩
  have hlt := hs.below hn
  have hmod : s'.nextpid = s.nextpid + 1 ∨ s'.nextpid < 0 := by
    have hint := hs.int
    rw [h.nextpid, Int.bmod_def]
    split <;> omega
  refine ⟨⟨fun q hq => ?_, fun q r hq hr he => ?_⟩, ?_, fun hn' q hq => ?_⟩
  · rcases hpid q hq with ⟨-, he⟩ | ⟨-, ha, he⟩
    · rwa [he]
    · rw [he]
      exact hs.positive q ha
  · rcases hpid q hq with ⟨rfl, h1⟩ | ⟨-, ha, h1⟩ <;> rcases hpid r hr with ⟨rfl, h2⟩ | ⟨-, hb, h2⟩
    · rfl
    · have := hlt r hb
      omega
    · have := hlt q ha
      omega
    · exact hs.distinct q r ha hb (by rw [← h1, ← h2, he])
  · rw [h.nextpid, Int.bmod_def]
    split <;> omega
  · have hnext : s.nextpid < s'.nextpid := by omega
    rcases hpid q hq with ⟨-, he⟩ | ⟨-, ha, he⟩
    · rwa [he]
    · rw [he]
      exact (hlt q ha).trans hnext

/-- The counter has not run over when `fork` is called. -/
def CountsUp (s : Sys n) (a : Fin n × Op) : Prop := a.2 = .fork → 0 < s.nextpid

theorem NotSpawned.alive (h : NotSpawned s s') (hq : s'.Alive q) : s.Alive q := by
  rcases h with rfl | ⟨np, h, hgone⟩
  · exact hq
  · exact (h.alive q fun he => hgone (he ▸ hq)).mp hq

theorem NotSpawned.below (h : NotSpawned s s') (hs : PidsBelow s) (hn : 0 < s.nextpid) :
    PidsBelow s' := by
  rcases h with rfl | ⟨np, h, -⟩
  · exact hs
  · exact h.below hs hn

theorem PidsBelow.run {op : Op} (hs : PidsBelow s) (hp : s.Alive p)
    (hc : op = .fork → 0 < s.nextpid) :
    wp (op.run g p) (fun _ s' => PidsBelow s') (fun _ => True) s := by
  have hX : ∀ q ∈ [p], s.Alive q := by simpa using hp
  have hsame : ∀ {α : Type} {x : SysM n α}, Within (SamePids [p]) x →
      wp (x >>= fun _ => pure ()) (fun _ s' => PidsBelow s') (fun _ => True) s := by
    intro α x hx
    rw [wp_bind]
    exact (hx s).mono fun _ s' h => h.below hX hs
  have hwait : ∀ {s : Sys n} (addr : Nat), PidsBelow s → s.Alive p →
      wp (wait g p addr >>= fun _ => pure ()) (fun _ s' => PidsBelow s') (fun _ => True) s := by
    intro s addr hs hp
    rw [wp_bind]
    refine (wait_pids p addr s).mono ?_
    rintro _ s' (h | ⟨pp, h⟩)
    · exact h.below (by simpa using hp) hs
    · exact h.below hs
  cases op with
  | fork =>
      have hn := hc rfl
      unfold Op.run
      rw [wp_bind]
      refine (fork_pids p s).mono ?_
      rintro _ s' (⟨-, h⟩ | ⟨-, np, h, -⟩)
      · exact h.below hs hn
      · exact h.below hs hn
  | exec upath uargv namei => exact hsame (sys_exec_pids p upath uargv namei)
  | sbrk k => exact hsame (sys_sbrk_pids p k)
  | exit status => exact (exit_pids p status s).mono fun _ s' h => h.below hX hs
  | wait addr => exact hwait addr hs hp
  | pipe fdarray => exact hsame (sys_pipe_pids p fdarray)
  | close fd => exact hsame (sys_close_pids p fd)
  | kill pid => exact hsame (kill_pids pid)
  | store va bytes => exact hsame (.bind .get fun s => onKern_pids _)
  | resume =>
      unfold Op.run
      rw [wp_bind, wp_get]
      cases (s.proc p).waiting with
      | none => exact hs
      | some addr =>
          have hw : Within (SamePids []) (wake p) :=
            modifyProc_pids (fun _ => rfl) (.inr fun _ => rfl)
          simp only
          rw [wp_bind]
          refine (hw s).mono fun _ s₁ h₁ => ?_
          exact hwait addr (h₁.below (by simp) hs) ((h₁.alive p (by simp)).mpr hp)

theorem PidsBelow.step {a : Fin n × Op} (hs : PidsBelow s) (hc : CountsUp s a)
    (h : step g s a = some s') : PidsBelow s' := by
  unfold Vm.step at h
  split at h
  · rename_i hst
    have hp : s.Alive a.1 := by
      rw [Sys.Alive, hst.1]
      decide
    have hrun := hs.run (g := g) hp hc
    cases hx : a.2.run g a.1 s with
    | error e =>
        rw [hx] at h
        cases h
    | ok r =>
        rw [hx] at h
        cases h
        exact (wp_ok hx).mp hrun
  · cases h

/-- `userinit` makes the first process. -/
theorem userinit_pids (s : Sys n) :
    wp (userinit g) (fun _ s' => ∃ np, Spawned np s s') (fun _ => True) s := by
  have hinit : ∀ (X : List (Fin n)) (x : Option (Fin n)), Within (ε := Panic) (SamePids X)
      (modify fun s : Sys n => { s with initproc := x }) := fun _ _ _ => .of_proc rfl rfl
  rw [userinit, wp_bind]
  refine (allocproc_pids s).mono ?_
  rintro (_ | np) s₁ h₁
  · rw [wp_bind]
    exact (hinit [] none s₁).mono fun _ _ _ => trivial
  change Fresh np s s₁ at h₁
  rw [wp_bind]
  refine (h₁.within (hinit [np] (some np))).mono fun _ s₂ h₂ => ?_
  simp only
  rw [wp_bind, wp_get, wp_bind]
  refine (h₂.within (onKern_pids _)).mono fun _ s₃ h₃ => ?_
  rw [wp_bind, wp_modifyProc, wp_bind]
  have h₄ := h₃.update (u := fun q => { q with sz := PGSIZE }) fun _ => rfl
  refine (h₄.within (onKern_pids _)).mono fun _ s₅ h₅ => ?_
  rw [wp_bind]
  refine (h₅.within (onKern_pids _)).mono fun _ s₆ h₆ => ?_
  rw [wp_bind, wp_modifyProc, wp_modifyProc]
  have h₇ := h₆.update (u := fun q => { q with cwd := some ⟨0, by decide⟩ }) fun _ => rfl
  have h₈ := h₇.update (u := fun q => { q with state := .runnable }) fun _ => rfl
  exact ⟨np, h₈.toSpawned⟩

theorem boot_pids (mem : Nat → Page) :
    wp (boot g) (fun _ s => PidsBelow s) (fun _ => True) (zeroed n mem) := by
  have hz : PidsBelow (zeroed n mem) :=
    ⟨⟨fun p hp => absurd rfl hp, fun p _ hp => absurd rfl hp⟩, show (1 : Int) < 2 ^ 31 by decide,
      fun _ p hp => absurd rfl hp⟩
  rw [boot, wp_bind]
  refine (onKern_pids (X := []) _ _).mono fun _ s₁ h₁ => ?_
  rw [wp_bind]
  refine (onKern_pids (X := []) _ _).mono fun taken s₂ h₂ => ?_
  rw [wp_bind]
  refine (userinit_pids s₂).mono ?_
  rintro _ s₃ ⟨np, h₃⟩
  refine h₃.below (h₂.below (by simp) (h₁.below (by simp) hz)) ?_
  rw [h₂.nextpid, h₁.nextpid]
  exact Int.one_pos

/-- The result of `fork` tells the parent whether there is a child, by a pid that no other
process has. -/
def ForkTells (s s' : Sys n) (r : Int) : Prop :=
  r = -1 ∧ (∀ q, s'.Alive q → s.Alive q) ∨
    0 < r ∧ (∃ np, ¬ s.Alive np ∧ s'.Alive np ∧ (s'.proc np).pid = r) ∧
      ∀ q, s.Alive q → (s.proc q).pid ≠ r

/-- A `kill` of one process leaves the others alone. -/
theorem kill_other (hs : PidsOk s) (hp : s.Alive p) (hq : s.Alive q) (hne : q ≠ p) :
    wp (kill (s.proc p).pid) (fun _ s' => s'.proc q = s.proc q) (fun _ => False) s := by
  rw [kill, wp_bind, wp_get]
  split
  · exact rfl
  · rename_i r hr
    have hpid : (s.proc r).pid = (s.proc p).pid := by simpa using List.find?_some hr
    have hqr : q ≠ r := by
      rintro rfl
      exact hne (hs.distinct q p hq hp hpid)
    rw [wp_bind, wp_modifyProc]
    exact Function.update_of_ne hqr _ _

/-- In every run from boot in which the counter is positive whenever `fork` is called, all
processes have positive pids, and different ones, so `kill` finds no other process than the
one it names.  A call of `fork` then tells by its result whether it has made a process, and a
`fork` that makes one keeps the pids positive and different if and only if the counter is
positive. -/
theorem pids_identify (n : Nat) (g : Layout) (mem : Nat → Page) : ∃ taken s₀,
    boot g (zeroed (n + 1) mem) = .ok (taken, s₀) ∧ ∀ xs s,
      Run.Meets (step g) CountsUp s₀ xs → Run.exec (step g) s₀ xs = some s →
      PidsOk s ∧
      (∀ p q, s.Alive p → s.Alive q → q ≠ p →
        wp (kill (s.proc p).pid) (fun _ s' => s'.proc q = s.proc q) (fun _ => False) s) ∧
      ∀ p r s', fork g p s = .ok (r, s') →
        (0 < s.nextpid → ForkTells s s' r) ∧
        ∀ np, ¬ s.Alive np → s'.Alive np → (PidsOk s' ↔ 0 < s.nextpid) := by
  obtain ⟨taken, s₀, hb, -⟩ := boot_ok (n := n) g mem (fun _ _ => False) fun _ _ => id
  refine ⟨taken, s₀, hb, fun xs s hm hr => ?_⟩
  have hs : PidsBelow s := Run.exec_invariant_of_meets (fun _ _ _ hs hc => hs.step hc)
    ((wp_ok hb).mp (boot_pids mem)) hm hr
  refine ⟨hs.toPidsOk, fun p q hp hq => kill_other hs.toPidsOk hp hq, fun p r s' hf => ?_⟩
  rcases (wp_ok hf).mp (fork_pids (g := g) p s) with ⟨rfl, hno⟩ | ⟨rfl, np, hnew, hlive⟩
  · have hless : ∀ q, s'.Alive q → s.Alive q := fun _ => hno.alive
    exact ⟨fun _ => .inl ⟨rfl, hless⟩, fun np h1 h2 => absurd (hless np h2) h1⟩
  · have hpid := hnew.new hlive
    refine ⟨fun hn => .inr ⟨hn, ⟨np, hnew.free, hlive, hpid⟩, fun q hq => ?_⟩, fun _ _ _ => ?_⟩
    · exact ne_of_lt (hs.below hn q hq)
    · exact ⟨fun hok => hpid ▸ hok.positive np hlive, fun hn => (hnew.below hs hn).toPidsOk⟩

/-- The child of the first `fork`. -/
theorem pids_identify_fork : ∃ taken s₀ s,
    bootZeroed smallLayout = .ok (taken, s₀) ∧
      Run.Meets (step smallLayout) CountsUp s₀ [(0, .fork)] ∧
      Run.exec (step smallLayout) s₀ [(0, .fork)] = some s ∧ s.Alive 0 ∧ s.Alive 1 ∧ PidsOk s := by
  obtain ⟨taken, s₀, hb, h⟩ := pids_identify 63 smallLayout fun _ => Page.fill 0
  obtain ⟨taken', s₀', s, hb', hr, hnext, hend⟩ : ∃ taken s₀ s,
      bootZeroed smallLayout = .ok (taken, s₀) ∧
      Run.exec (step smallLayout) s₀ [] = some s ∧ s.nextpid = 2 ∧
      ((Run.exec (step smallLayout) s [(0, .fork)]).any fun s' =>
        s'.Alive 0 ∧ s'.Alive 1) = true := exists_run_of_check (by decide +kernel)
  cases hb.symm.trans hb'
  cases hr
  obtain ⟨s, hr, h0, h1⟩ := Run.exists_exec_of_check hend
  have hm : Run.Meets (step smallLayout) CountsUp s₀ [(0, .fork)] :=
    ⟨fun _ => by rw [hnext]; decide, fun _ _ => trivial⟩
  exact ⟨taken, s₀, s, hb, hm, hr, h0, h1, (h _ s hm hr).1⟩

end Xv6.Vm
