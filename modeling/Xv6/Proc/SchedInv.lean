import Xv6.Proc.Frames

/-!
# The invariant of the scheduler

`SchedInv` ties what the frames say to the locks, the process table and the
CPUs.  The lock of a process is handed from the scheduler to the process and
back across `swtch`: while a process leaves `RUNNING` behind and is not yet
switched out, its CPU holds its lock, and goes on holding it in the scheduler.
A process that is off the CPUs is at a point where it can be resumed.

There is one lemma for each kind of instruction.  Most steps only replace the
innermost frame of a thread (`SchedInv.replace`).  A store to the state of a
process is made under its lock (`storeOther`, and `storeOwn` in the next
module), and the steps around `swtch` concern one CPU and one process
(`CpusOk.concerns`).
-/

namespace Xv6

variable {m n : Nat} {s : Sys m n} {c : Fin m} {p : Fin n}

/-! ## The invariant -/

/-- The CPU runs the process, or its scheduler is about to run it or has just
run it. -/
def Sys.Claims (s : Sys m n) (c : Fin m) (p : Fin n) : Prop :=
  ∃ pc, s.stack (.scheduler c) = [.scheduler pc] ∧ pc.claim = some p

/-- The process is on no CPU. -/
def Sys.Off (s : Sys m n) (p : Fin n) : Prop := ∀ c, (s.cpu c).cur ≠ some p

/-- The processes being made by the frames of a stack. -/
def children (fs : List (Frame n)) : List (Fin n) := fs.filterMap Frame.child

/-- The states of a process that the scheduler can find when it is back. -/
def ProcState.Left : ProcState → Prop
  | .runnable | .sleeping | .zombie => True
  | .unused | .used | .running => False

/-- The states in which a process is to run again. -/
def ProcState.Live : ProcState → Prop
  | .runnable | .sleeping | .running => True
  | .unused | .used | .zombie => False

/-- The locks: one holder each, counted by `noff`, and the lock of a process is
held by a CPU exactly if the innermost frame on it says so. -/
structure LocksOk (s : Sys m n) : Prop where
  one : s.locks.Ok
  noff : ∀ c, (s.cpu c).noff = s.locks.count c
  held : ∀ c q, (.proc q, c) ∈ s.locks ↔ topHolds (s.stack (s.thread c)) = some q

/-- The stacks: each thread runs its own frames, only the innermost frame holds
the lock of a process, and a frame knows what it knows. -/
structure StacksOk (s : Sys m n) : Prop where
  runsOn : ∀ t, ∀ f ∈ s.stack t, f.RunsOn t
  lower : ∀ t, ∀ f ∈ (s.stack t).tail, f.holds = none
  /-- A frame that sees a process is innermost on a CPU. -/
  sees : ∀ t f q x, f ∈ s.stack t → f.sees = some (q, x) →
    (s.proc q).state = x ∧ ∃ c, s.thread c = t
  /-- The children of unfinished calls of `fork` are `USED`. -/
  used : ∀ t f q, f ∈ s.stack t → f.child = some q →
    (s.proc q).state = .used ∧ (f.Ready → s.stack (.proc q) = [.forkret q])
  nodup : ∀ t, (children (s.stack t)).Nodup
  disjoint : ∀ t t' q, q ∈ children (s.stack t) → q ∈ children (s.stack t') → t = t'

/-- The CPUs and the processes they claim. -/
structure CpusOk (s : Sys m n) : Prop where
  sched : ∀ c, ∃ pc, SchedStack (s.stack (.scheduler c)) pc ∧ (s.cpu c).proc = pc.proc
  /-- On the stack of a process. -/
  onProc : ∀ c p, (s.cpu c).cur = some p →
    s.stack (.scheduler c) = [.scheduler (.clearProc p)] ∧
      (s.proc p).state = topOwn (s.stack (.proc p))
  /-- In the scheduler, before the `swtch` to a process. -/
  before : ∀ c p, (s.cpu c).cur = none →
    s.stack (.scheduler c) = [.scheduler (.setProc p)] ∨
      s.stack (.scheduler c) = [.scheduler (.swtch p)] → (s.proc p).state = .running
  /-- In the scheduler, after the `swtch` back from a process. -/
  after : ∀ c p, (s.cpu c).cur = none →
    s.stack (.scheduler c) = [.scheduler (.clearProc p)] → (s.proc p).state.Left
  uniq : ∀ c c' p, s.Claims c p → s.Claims c' p → c = c'
  idle : ∀ p, (∀ c, ¬ s.Claims c p) → (s.proc p).state ≠ .running
  /-- A process that is off the CPUs can be resumed. -/
  resume : ∀ p, s.Off p → (s.proc p).state.Live →
    ∃ f rest, s.stack (.proc p) = f :: rest ∧ f.Resumes p

/-- The invariant of the scheduler. -/
structure SchedInv (s : Sys m n) : Prop where
  locks : LocksOk s
  frames : StacksOk s
  cpus : CpusOk s

/-! ## Consequences -/

theorem mem_top {f : Frame n} {l rest : List (Frame n)} (h : l = f :: rest) : f ∈ l := by
  rw [h]
  exact List.mem_cons_self

theorem thread_eq_proc : s.thread c = .proc p ↔ (s.cpu c).cur = some p := by
  unfold Sys.thread
  cases (s.cpu c).cur <;> simp

theorem thread_eq_scheduler {c' : Fin m} :
    s.thread c = .scheduler c' ↔ (s.cpu c).cur = none ∧ c = c' := by
  unfold Sys.thread
  cases (s.cpu c).cur <;> simp

/-- At boot the only frame of a process is `forkret`, in `initproc`. -/
theorem Sys.init_stack {q : Fin n} {f : Frame n} (hf : f ∈ (Sys.init m n p).stack (.proc q)) :
    f = .forkret q := by
  simp only [Sys.init] at hf
  split at hf
  · exact List.mem_singleton.mp hf
  · cases hf

theorem Sys.init_proc (p q : Fin n) : ((Sys.init m n p).proc q).killed = false ∧
    ((Sys.init m n p).proc q).parent = none ∧
    (((Sys.init m n p).proc q).state = .runnable ∨ ((Sys.init m n p).proc q).state = .unused) := by
  simp only [Sys.init]
  split
  · exact ⟨rfl, rfl, .inl rfl⟩
  · exact ⟨rfl, rfl, .inr rfl⟩

theorem SchedInv.init (m n : Nat) (p : Fin n) : SchedInv (Sys.init m n p) where
  locks :=
    { one := List.nodup_nil
      noff := fun c => rfl
      held := fun c q => by simp [Sys.init, Sys.thread, topHolds, Frame.holds, SchedulerPc.holds] }
  frames :=
    { runsOn := by
        intro t f hf
        cases t with
        | scheduler c =>
            cases List.mem_singleton.mp hf
            trivial
        | proc q =>
            rw [Sys.init_stack hf]
            rfl
      lower := by
        intro t f hf
        cases t with
        | scheduler c => cases hf
        | proc q =>
            simp only [Sys.init] at hf
            split at hf <;> cases hf
      sees := by
        intro t f q x hf hs
        cases t with
        | scheduler c =>
            cases List.mem_singleton.mp hf
            cases hs
        | proc r =>
            cases Sys.init_stack hf
            cases hs
      used := by
        intro t f q hf hs
        cases t with
        | scheduler c =>
            cases List.mem_singleton.mp hf
            cases hs
        | proc r =>
            cases Sys.init_stack hf
            cases hs
      nodup := by
        intro t
        cases t with
        | scheduler c => exact List.nodup_nil
        | proc q =>
            simp only [Sys.init]
            split <;> exact List.nodup_nil
      disjoint := by
        intro t t' q hq
        cases t with
        | scheduler c => cases hq
        | proc r =>
            simp only [Sys.init] at hq
            split at hq <;> cases hq }
  cpus :=
    { sched := fun c => ⟨.acquire 0, .base _, rfl⟩
      onProc := by simp [Sys.init]
      before := by simp [Sys.init]
      after := by simp [Sys.init]
      uniq := by
        rintro c c' q ⟨pc, hpc, hq⟩ _
        cases hpc
        cases hq
      idle := by
        intro q _
        rcases (Sys.init_proc (m := m) p q).2.2 with hs | hs <;> rw [hs] <;> simp
      resume := by
        intro q _ hq
        simp only [Sys.init] at hq ⊢
        split at hq
        · rename_i hqp
          rw [if_pos hqp]
          exact ⟨_, _, rfl, rfl⟩
        · cases hq }

section Facts

variable {s : Sys m n} {c : Fin m} {p q : Fin n} {f : Frame n}

/-- A CPU on the stack of a process claims it. -/
theorem SchedInv.claims_of_cur (h : SchedInv s) (hc : (s.cpu c).cur = some p) : s.Claims c p :=
  ⟨_, (h.cpus.onProc c p hc).1, rfl⟩

theorem topOwn_mem (fs : List (Frame n)) : topOwn fs ≠ .unused ∧ topOwn fs ≠ .used := by
  cases fs with
  | nil => simp [topOwn]
  | cons f rest => exact f.own_mem

/-- A claimed process is neither free nor being made. -/
theorem SchedInv.state_of_claims (h : SchedInv s) (hc : s.Claims c p) :
    (s.proc p).state ≠ .unused ∧ (s.proc p).state ≠ .used := by
  obtain ⟨pc, hst, hp⟩ := hc
  cases hcur : (s.cpu c).cur with
  | some q =>
      obtain ⟨hst', hown⟩ := h.cpus.onProc c q hcur
      rw [hst'] at hst
      cases hst
      cases hp
      rw [hown]
      exact topOwn_mem _
  | none =>
      cases pc with
      | setProc q =>
          cases hp
          rw [h.cpus.before c p hcur (.inl hst)]
          simp
      | swtch q =>
          cases hp
          rw [h.cpus.before c p hcur (.inr hst)]
          simp
      | clearProc q =>
          cases hp
          have := h.cpus.after c p hcur hst
          constructor <;> intro he <;> rw [he] at this <;> cases this
      | _ => cases hp

/-- A CPU that claims a process in any state but `RUNNING` holds its lock, and
is in the scheduler or at a point that set the state. -/
theorem SchedInv.lock_of_claims (h : SchedInv s) (hc : s.Claims c p)
    (hs : (s.proc p).state ≠ .running) :
    (.proc p, c) ∈ s.locks ∧
      ((∃ pc, s.stack (s.thread c) = [.scheduler pc]) ∨ topOwn (s.stack (s.thread c)) ≠ .running) := by
  obtain ⟨pc, hst, hp⟩ := hc
  cases hcur : (s.cpu c).cur with
  | some q =>
      obtain ⟨hst', hown⟩ := h.cpus.onProc c q hcur
      rw [hst'] at hst
      cases hst
      cases hp
      rw [h.locks.held, thread_eq_proc.mpr hcur]
      rw [hown] at hs
      refine ⟨?_, .inr hs⟩
      have hruns := h.frames.runsOn (.proc p)
      cases hfs : s.stack (.proc p) with
      | nil =>
          rw [hfs] at hs
          exact absurd rfl hs
      | cons f rest =>
          rw [hfs] at hs hruns
          exact Frame.holds_of_own (hruns f List.mem_cons_self) hs
  | none =>
      have ht : s.thread c = .scheduler c := thread_eq_scheduler.mpr ⟨hcur, rfl⟩
      rw [h.locks.held, ht, hst]
      refine ⟨?_, .inl ⟨pc, rfl⟩⟩
      cases pc with
      | setProc q => cases hp; rfl
      | swtch q => cases hp; rfl
      | clearProc q => cases hp; rfl
      | _ => cases hp

/-- A process whose lock is held by a frame of other code is not claimed, unless
it is `RUNNING`. -/
theorem SchedInv.not_claims (h : SchedInv s) {rest : List (Frame n)}
    (hst : s.stack (s.thread c) = f :: rest) (hq : f.holds = some q) (hown : f.own = .running)
    (hns : ∀ pc, f = .scheduler pc → pc.claim = none) (hs : (s.proc q).state ≠ .running)
    (c' : Fin m) : ¬ s.Claims c' q := by
  intro hc
  obtain ⟨hlock, hwhere⟩ := h.lock_of_claims hc hs
  have hlock' : (.proc q, c) ∈ s.locks := by
    rw [h.locks.held, hst]
    exact hq
  have hcc : c' = c := h.locks.one.holder_eq hlock hlock'
  subst hcc
  rw [hst] at hwhere
  rcases hwhere with ⟨pc, hpc⟩ | hne
  · cases hpc
    obtain ⟨pc', hst', hclaim⟩ := hc
    cases hcur : (s.cpu c').cur with
    | none =>
        rw [thread_eq_scheduler.mpr ⟨hcur, rfl⟩, hst'] at hst
        cases hst
        rw [hns _ rfl] at hclaim
        cases hclaim
    | some p =>
        rw [thread_eq_proc.mpr hcur] at hst
        have hruns : (Frame.scheduler pc : Frame n).RunsOn (.proc p : Thread m n) :=
          h.frames.runsOn (.proc p) _ (mem_top hst)
        exact hruns
  · exact hne hown

/-- The frame that sees a process is the innermost one of the CPU that holds the
lock. -/
theorem SchedInv.sees_top (h : SchedInv s) {t : Thread m n} {x : ProcState} (hf : f ∈ s.stack t)
    (hs : f.sees = some (q, x)) :
    ∃ c rest, s.thread c = t ∧ s.stack t = f :: rest ∧ (.proc q, c) ∈ s.locks := by
  obtain ⟨-, c, rfl⟩ := h.frames.sees t f q x hf hs
  have hholds := (Frame.holds_of_sees hs).1
  cases hst : s.stack (s.thread c) with
  | nil =>
      rw [hst] at hf
      cases hf
  | cons g rest =>
      rw [hst] at hf
      rcases List.mem_cons.mp hf with rfl | hmem
      · refine ⟨c, rest, rfl, rfl, ?_⟩
        rw [h.locks.held, hst]
        exact hholds
      · have := h.frames.lower (s.thread c) f (by rw [hst]; exact hmem)
        rw [hholds] at this
        cases this

/-- A thread on a CPU is not the thread of a process being made. -/
theorem SchedInv.thread_ne (h : SchedInv s) (c : Fin m)
    (hq : (s.proc q).state = .unused ∨ (s.proc q).state = .used) : s.thread c ≠ .proc q := by
  intro ht
  have hs := h.state_of_claims (h.claims_of_cur (thread_eq_proc.mp ht))
  rcases hq with hq | hq
  · exact hs.1 hq
  · exact hs.2 hq

end Facts

/-! ## Steps inside a thread -/

/-- `new` may follow the frame `f` on a stack. -/
structure Follows (f : Frame n) (new : List (Frame n)) : Prop where
  runsOn : ∀ {m} (t : Thread m n), f.RunsOn t → ∀ g ∈ new, g.RunsOn t
  lower : ∀ g ∈ new.tail, g.holds = none

/-- `new` goes with the same state of the process as the frame `f`, and with the
same claims of the CPU. -/
structure Stays (f : Frame n) (new : List (Frame n)) : Prop where
  own : topOwn new = f.own
  sched : ∀ pc, f = .scheduler pc →
    ∃ pc', new = [.scheduler pc'] ∧ pc.claim = none ∧ pc'.claim = none ∧ pc'.proc = pc.proc
  wakeup : ∀ chan pc, f = .wakeup chan pc → new = [] ∨ ∃ pc', new = [.wakeup chan pc']

/-- `new` is making the same process as the frame `f`, or both none. -/
structure Keeps (f : Frame n) (new : List (Frame n)) : Prop where
  child : children new = f.child.toList
  ready : ∀ g ∈ new, g.Ready → f.Ready

/-- Only the stack of one thread changes, and what is outside of the invariant. -/
structure Moves (s s' : Sys m n) (t : Thread m n) (fs : List (Frame n)) : Prop where
  cur : ∀ c, (s'.cpu c).cur = (s.cpu c).cur
  proc : ∀ c, (s'.cpu c).proc = (s.cpu c).proc
  state : ∀ q, (s'.proc q).state = (s.proc q).state
  stack : s'.stack = Function.update s.stack t fs

section Replace

variable {s s' : Sys m n} {c : Fin m} {f : Frame n} {rest new : List (Frame n)} {q : Fin n}

theorem thread_congr (h : ∀ c, (s'.cpu c).cur = (s.cpu c).cur) (c : Fin m) :
    s'.thread c = s.thread c := by
  unfold Sys.thread
  rw [h c]

theorem children_append (fs gs : List (Frame n)) : children (fs ++ gs) = children fs ++ children gs :=
  List.filterMap_append

theorem children_cons (f : Frame n) (fs : List (Frame n)) :
    children (f :: fs) = f.child.toList ++ children fs := by
  unfold children
  rw [List.filterMap_cons]
  cases f.child <;> rfl

theorem mem_children {fs : List (Frame n)} : q ∈ children fs ↔ ∃ f ∈ fs, f.child = some q := by
  unfold children
  rw [List.mem_filterMap]

/-- What `new` is making is what `f` was making, with a context as before. -/
theorem Keeps.ready_stack (hk : Keeps f new) (h : StacksOk s) {t : Thread m n} (hf : f ∈ s.stack t)
    {g : Frame n} (hg : g ∈ new) (hq : g.child = some q) (hr : g.Ready) :
    s.stack (.proc q) = [.forkret q] := by
  have hin : q ∈ children new := mem_children.mpr ⟨g, hg, hq⟩
  rw [hk.child] at hin
  exact (h.used t f q hf (Option.mem_toList.mp hin)).2 (hk.ready g hg hr)

/-- The innermost frame is no longer there, or was replaced. -/
theorem topOwn_append (hf : Stays f new) (hrest : ∀ g ∈ rest, g.holds = none) :
    topOwn (new ++ rest) = f.own := by
  cases new with
  | cons g new => exact hf.own
  | nil =>
      rw [← hf.own]
      cases rest with
      | nil => rfl
      | cons g rest => exact Frame.own_of_holds (hrest g List.mem_cons_self)

section

variable (h : SchedInv s) (hst : s.stack (s.thread c) = f :: rest)

include h hst

theorem StacksOk.replace (hcur : ∀ c, (s'.cpu c).cur = (s.cpu c).cur)
    (hstate : ∀ q, (s'.proc q).state = (s.proc q).state)
    (hstack : s'.stack = Function.update s.stack (s.thread c) (new ++ rest)) (hf : Follows f new)
    (hchild : children new = f.child.toList)
    (hready : ∀ g ∈ new, ∀ q, g.child = some q → g.Ready → s.stack (.proc q) = [.forkret q])
    (hsees : ∀ g ∈ new, ∀ q x, g.sees = some (q, x) → (s.proc q).state = x) : StacksOk s' := by
  have hself : s'.stack (s.thread c) = new ++ rest := by rw [hstack, Function.update_self]
  have hother : ∀ t, t ≠ s.thread c → s'.stack t = s.stack t := fun t ht => by
    rw [hstack, Function.update_of_ne ht]
  have hmem : ∀ g, g ∈ f :: rest → g ∈ s.stack (s.thread c) := fun g hg => by rw [hst]; exact hg
  have hrest : ∀ g ∈ rest, g.holds = none := fun g hg =>
    h.frames.lower (s.thread c) g (by rw [hst]; exact hg)
  have hkids : ∀ t, children (s'.stack t) = children (s.stack t) := by
    intro t
    by_cases ht : t = s.thread c
    · rw [ht, hself, hst, children_append, children_cons, hchild]
    · rw [hother t ht]
  refine ⟨fun t g hg => ?_, fun t g hg => ?_, fun t g q x hg hx => ?_, fun t g q hg hq => ?_,
    fun t => ?_, fun t t' q hq hq' => ?_⟩
  · by_cases ht : t = s.thread c
    · rw [ht, hself] at hg
      rw [ht]
      rcases List.mem_append.mp hg with hg | hg
      · exact hf.runsOn _ (h.frames.runsOn _ f (hmem f List.mem_cons_self)) g hg
      · exact h.frames.runsOn _ g (hmem g (List.mem_cons_of_mem _ hg))
    · rw [hother t ht] at hg
      exact h.frames.runsOn t g hg
  · by_cases ht : t = s.thread c
    · rw [ht, hself] at hg
      cases new with
      | nil => exact hrest g (List.mem_of_mem_tail hg)
      | cons g' new =>
          rcases List.mem_append.mp hg with hg | hg
          · exact hf.lower g hg
          · exact hrest g hg
    · rw [hother t ht] at hg
      exact h.frames.lower t g hg
  · rw [hstate]
    by_cases ht : t = s.thread c
    · refine ⟨?_, c, by rw [thread_congr hcur, ht]⟩
      rw [ht, hself] at hg
      rcases List.mem_append.mp hg with hg | hg
      · exact hsees g hg q x hx
      · exact (h.frames.sees _ g q x (hmem g (List.mem_cons_of_mem _ hg)) hx).1
    · rw [hother t ht] at hg
      obtain ⟨hst', c', hc'⟩ := h.frames.sees t g q x hg hx
      exact ⟨hst', c', by rw [thread_congr hcur, hc']⟩
  · -- a child of the new frames is a child of the frame they replace
    have hold : (s.proc q).state = .used ∧ (g.Ready → s.stack (.proc q) = [.forkret q]) := by
      by_cases ht : t = s.thread c
      · rw [ht, hself] at hg
        rcases List.mem_append.mp hg with hg | hg
        · have hin : q ∈ children new := mem_children.mpr ⟨g, hg, hq⟩
          rw [hchild] at hin
          refine ⟨?_, hready g hg q hq⟩
          exact (h.frames.used _ f q (hmem f List.mem_cons_self) (Option.mem_toList.mp hin)).1
        · exact h.frames.used _ g q (hmem g (List.mem_cons_of_mem _ hg)) hq
      · rw [hother t ht] at hg
        exact h.frames.used t g q hg hq
    rw [hstate, hother _ (h.thread_ne c (.inr hold.1)).symm]
    exact hold
  · rw [hkids]
    exact h.frames.nodup t
  · rw [hkids] at hq hq'
    exact h.frames.disjoint t t' q hq hq'

/-- The scheduler thread of a CPU before and after the step. -/
theorem SchedInv.sched_replace (hm : Moves s s' (s.thread c) (new ++ rest)) (hf : Stays f new)
    (c' : Fin m) :
    ∃ pc', SchedStack (s'.stack (.scheduler c')) pc' ∧ (s'.cpu c').proc = pc'.proc ∧
      (s'.stack (.scheduler c') = s.stack (.scheduler c') ∨
        ((∀ p, ¬ s.Claims c' p) ∧ ∀ p, ¬ s'.Claims c' p)) := by
  obtain ⟨pc, hsch, hproc⟩ := h.cpus.sched c'
  by_cases ht : Thread.scheduler c' = s.thread c
  · have hs' : s'.stack (.scheduler c') = new ++ rest := by
      rw [hm.stack, ht, Function.update_self]
    rw [← ht] at hst
    rw [hst] at hsch
    cases hsch with
    | base =>
        obtain ⟨pc', hnew, hcl, hcl', hp⟩ := hf.sched pc rfl
        rw [hnew] at hs'
        refine ⟨pc', by rw [hs']; exact .base pc', by rw [hm.proc, hproc, hp], .inr ⟨?_, ?_⟩⟩
        · rintro p ⟨pc₁, h1, h2⟩
          rw [hst] at h1
          cases h1
          rw [hcl] at h2
          cases h2
        · rintro p ⟨pc₁, h1, h2⟩
          rw [hs'] at h1
          cases h1
          rw [hcl'] at h2
          cases h2
    | intr chan wpc hrest hholds =>
        have hno : ∀ pc₁ : SchedulerPc n, s.stack (.scheduler c') ≠ [.scheduler pc₁] := by
          intro pc₁ he
          rw [hst] at he
          cases he
        have hclaim : pc.claim = none := by
          cases pc with
          | acquire i => rfl
          | _ => cases hholds
        refine ⟨pc, ?_, by rw [hm.proc, hproc], .inr ⟨?_, ?_⟩⟩
        · rw [hs']
          rcases hf.wakeup chan wpc rfl with rfl | ⟨wpc', rfl⟩
          · exact hrest
          · exact .intr chan wpc' hrest hholds
        · rintro p ⟨pc₁, h1, -⟩
          exact hno pc₁ h1
        · rintro p ⟨pc₁, h1, h2⟩
          rw [hs'] at h1
          rcases hf.wakeup chan wpc rfl with rfl | ⟨wpc', rfl⟩
          · rw [List.nil_append] at h1
            rw [h1] at hrest
            cases hrest
            rw [hclaim] at h2
            cases h2
          · cases h1
  · have hs' : s'.stack (.scheduler c') = s.stack (.scheduler c') := by
      rw [hm.stack, Function.update_of_ne ht]
    exact ⟨pc, by rw [hs']; exact hsch, by rw [hm.proc, hproc], .inl hs'⟩

theorem SchedInv.claims_replace (hm : Moves s s' (s.thread c) (new ++ rest)) (hf : Stays f new)
    (c' : Fin m) (p : Fin n) :
    s'.Claims c' p ↔ s.Claims c' p := by
  obtain ⟨-, -, -, heq | ⟨hno, hno'⟩⟩ := h.sched_replace hst hm hf c'
  · unfold Sys.Claims
    rw [heq]
  · exact ⟨fun hc => absurd hc (hno' p), fun hc => absurd hc (hno p)⟩

theorem CpusOk.replace (hm : Moves s s' (s.thread c) (new ++ rest)) (hf : Stays f new) :
    CpusOk s' := by
  have hclaims := h.claims_replace hst hm hf
  have hrest : ∀ g ∈ rest, g.holds = none := fun g hg =>
    h.frames.lower (s.thread c) g (by rw [hst]; exact hg)
  -- a scheduler stack that claims a process has not changed
  have hback : ∀ c' pc p, s'.stack (.scheduler c') = [.scheduler pc] → pc.claim = some p →
      s.stack (.scheduler c') = [.scheduler pc] := by
    intro c' pc p hs' hcl
    obtain ⟨-, -, -, heq | ⟨-, hno'⟩⟩ := h.sched_replace hst hm hf c'
    · rw [← heq, hs']
    · exact absurd ⟨pc, hs', hcl⟩ (hno' p)
  refine ⟨fun c' => ?_, fun c' p hc => ?_, fun c' p hc hs' => ?_, fun c' p hc hs' => ?_,
    fun c₁ c₂ p h1 h2 => ?_, fun p hp => ?_, fun p hoff hlive => ?_⟩
  · obtain ⟨pc', hsch, hproc, -⟩ := h.sched_replace hst hm hf c'
    exact ⟨pc', hsch, hproc⟩
  · rw [hm.cur] at hc
    obtain ⟨hsch, hown⟩ := h.cpus.onProc c' p hc
    refine ⟨?_, ?_⟩
    · obtain ⟨-, -, -, heq | ⟨hno, -⟩⟩ := h.sched_replace hst hm hf c'
      · rw [heq, hsch]
      · exact absurd ⟨_, hsch, rfl⟩ (hno p)
    · rw [hm.state, hown, hm.stack]
      by_cases ht : Thread.proc p = s.thread c
      · rw [ht, Function.update_self, topOwn_append hf hrest, hst]
        rfl
      · rw [Function.update_of_ne ht]
  · rw [hm.cur] at hc
    rw [hm.state]
    exact h.cpus.before c' p hc (hs'.imp (fun e => hback c' _ p e rfl) fun e => hback c' _ p e rfl)
  · rw [hm.cur] at hc
    rw [hm.state]
    exact h.cpus.after c' p hc (hback c' _ p hs' rfl)
  · exact h.cpus.uniq c₁ c₂ p ((hclaims _ _).mp h1) ((hclaims _ _).mp h2)
  · rw [hm.state]
    exact h.cpus.idle p fun c' hc => hp c' ((hclaims _ _).mpr hc)
  · have hoff' : s.Off p := fun c' hc => hoff c' (by rw [hm.cur]; exact hc)
    rw [hm.state] at hlive
    have ht : Thread.proc p ≠ s.thread c := fun ht => hoff' c (thread_eq_proc.mp ht.symm)
    rw [hm.stack, Function.update_of_ne ht]
    exact h.cpus.resume p hoff' hlive

/-- A step of a thread that keeps to its own stack. -/
theorem SchedInv.replace (hm : Moves s s' (s.thread c) (new ++ rest)) (hf : Follows f new)
    (hy : Stays f new) (hk : Keeps f new)
    (hsees : ∀ g ∈ new, ∀ q x, g.sees = some (q, x) → (s.proc q).state = x) (hl : LocksOk s') :
    SchedInv s' := by
  have hmem : f ∈ s.stack (s.thread c) := by rw [hst]; exact List.mem_cons_self
  exact ⟨hl, .replace h hst hm.cur hm.state hm.stack hf hk.child
    (fun g hg q hq hr => hk.ready_stack h.frames hmem hg hq hr) hsees, .replace h hst hm hy⟩

end

end Replace

/-! ## One lemma for each instruction -/

section Instructions

variable {s s' : Sys m n} {c : Fin m} {f : Frame n} {rest new : List (Frame n)} {lk : Lock n}

theorem SchedInv.halt (h : SchedInv s) (e : SchedPanic) : SchedInv (s.halt e) :=
  ⟨⟨h.locks.one, h.locks.noff, h.locks.held⟩,
    ⟨h.frames.runsOn, h.frames.lower, h.frames.sees, h.frames.used, h.frames.nodup,
      h.frames.disjoint⟩,
    ⟨h.cpus.sched, h.cpus.onProc, h.cpus.before, h.cpus.after, h.cpus.uniq, h.cpus.idle,
      h.cpus.resume⟩⟩

theorem SchedInv.rest_holds (h : SchedInv s) (hst : s.stack (s.thread c) = f :: rest) :
    ∀ g ∈ rest, g.holds = none := fun g hg =>
  h.frames.lower (s.thread c) g (by rw [hst]; exact hg)

theorem topHolds_append (hrest : ∀ g ∈ rest, g.holds = none) :
    topHolds (new ++ rest) = topHolds new := by
  cases new with
  | cons g new => rfl
  | nil =>
      cases rest with
      | nil => rfl
      | cons g rest => exact hrest g List.mem_cons_self

/-- Two CPUs are not on the same stack. -/
theorem SchedInv.thread_inj (h : SchedInv s) {c' : Fin m} (ht : s.thread c' = s.thread c) :
    c' = c := by
  cases hcur : (s.cpu c).cur with
  | none =>
      rw [thread_eq_scheduler.mpr ⟨hcur, rfl⟩, thread_eq_scheduler] at ht
      exact ht.2
  | some p =>
      rw [thread_eq_proc.mpr hcur, thread_eq_proc] at ht
      exact h.cpus.uniq _ _ p (h.claims_of_cur ht) (h.claims_of_cur hcur)

section

variable (h : SchedInv s) (hst : s.stack (s.thread c) = f :: rest)

include h hst

/-- The locks after a step that neither acquires nor releases. -/
theorem LocksOk.same (hm : Moves s s' (s.thread c) (new ++ rest)) (hlocks : s'.locks = s.locks)
    (hnoff : ∀ c', (s'.cpu c').noff = (s.cpu c').noff) (htop : topHolds new = f.holds) :
    LocksOk s' := by
  refine ⟨by rw [hlocks]; exact h.locks.one, fun c' => ?_, fun c' q => ?_⟩
  · rw [hnoff, hlocks, h.locks.noff]
  · rw [hlocks, h.locks.held, thread_congr hm.cur, hm.stack]
    by_cases hc : c' = c
    · subst hc
      rw [Function.update_self, hst, topHolds_append (h.rest_holds hst), htop]
      rfl
    · rw [Function.update_of_ne fun ht => hc (h.thread_inj ht)]

theorem SchedInv.goto (hf : Follows f new) (hy : Stays f new) (hk : Keeps f new)
    (htop : topHolds new = f.holds)
    (hsees : ∀ g ∈ new, ∀ q x, g.sees = some (q, x) → (s.proc q).state = x) :
    SchedInv (s.setStack (s.thread c) (new ++ rest)) := by
  have hm : Moves s (s.setStack (s.thread c) (new ++ rest)) (s.thread c) (new ++ rest) :=
    ⟨fun _ => rfl, fun _ => rfl, fun _ => rfl, rfl⟩
  exact h.replace hst hm hf hy hk hsees (.same h hst hm rfl (fun _ => rfl) htop)

/-- A store that leaves the state of the process alone. -/
theorem SchedInv.store (hf : Follows f new) (hy : Stays f new) (hk : Keeps f new)
    (htop : topHolds new = f.holds)
    (hsees : ∀ g ∈ new, ∀ q x, g.sees = some (q, x) → (s.proc q).state = x) {q : Fin n}
    {u : Proc n → Proc n} (hu : ∀ r, (u r).state = r.state) :
    SchedInv ((s.setStack (s.thread c) (new ++ rest)).setPcb q u) := by
  have hstate : ∀ r, (((s.setStack (s.thread c) (new ++ rest)).setPcb q u).proc r).state =
      (s.proc r).state := by
    intro r
    show (Function.update s.proc q (u (s.proc q)) r).state = _
    by_cases hr : r = q
    · rw [hr, Function.update_self, hu]
    · rw [Function.update_of_ne hr]
  have hm : Moves s ((s.setStack (s.thread c) (new ++ rest)).setPcb q u) (s.thread c)
      (new ++ rest) := ⟨fun _ => rfl, fun _ => rfl, hstate, rfl⟩
  exact h.replace hst hm hf hy hk hsees (.same h hst hm rfl (fun _ => rfl) htop)

theorem SchedInv.setNextpid (hf : Follows f new) (hy : Stays f new) (hk : Keeps f new)
    (htop : topHolds new = f.holds)
    (hsees : ∀ g ∈ new, ∀ q x, g.sees = some (q, x) → (s.proc q).state = x) (pid : Int) :
    SchedInv { s.setStack (s.thread c) (new ++ rest) with nextpid := pid } := by
  have hm : Moves s { s.setStack (s.thread c) (new ++ rest) with nextpid := pid } (s.thread c)
      (new ++ rest) := ⟨fun _ => rfl, fun _ => rfl, fun _ => rfl, rfl⟩
  exact h.replace hst hm hf hy hk hsees (.same h hst hm rfl (fun _ => rfl) htop)

end

theorem setCpu_noff (s : Sys m n) (c c' : Fin m) (u : Cpu n → Cpu n) :
    ((s.setCpu c u).cpu c').noff = if c' = c then (u (s.cpu c)).noff else (s.cpu c').noff := by
  by_cases h : c' = c
  · subst h
    simp [Sys.setCpu]
  · simp [Sys.setCpu, h]

/-- Changing `noff` only. -/
theorem setCpu_same (s : Sys m n) (c c' : Fin m) {u : Cpu n → Cpu n}
    (hcur : ∀ r, (u r).cur = r.cur) (hproc : ∀ r, (u r).proc = r.proc) :
    ((s.setCpu c u).cpu c').cur = (s.cpu c').cur ∧ ((s.setCpu c u).cpu c').proc = (s.cpu c').proc := by
  by_cases h : c' = c
  · subst h
    simp [Sys.setCpu, hcur, hproc]
  · simp [Sys.setCpu, h]

theorem SchedInv.acquire (h : SchedInv s) (hst : s.stack (s.thread c) = f :: rest)
    (hf : Follows f new) (hy : Stays f new) (hk : Keeps f new)
    (hsees : ∀ g ∈ new, ∀ q x, g.sees = some (q, x) → (s.proc q).state = x)
    (htop : ∀ q, topHolds new = some q ↔ f.holds = some q ∨ lk = .proc q)
    (hs' : s.acquire c lk (fun s' => s'.setStack (s.thread c) (new ++ rest)) = some s') :
    SchedInv s' := by
  unfold Sys.acquire at hs'
  split at hs'
  · cases hs'
    exact h.halt _
  · split at hs'
    · rename_i hfree
      cases hs'
      have hsame := fun c' => setCpu_same s c c' (u := fun r => { r with noff := r.noff + 1 })
        (fun _ => rfl) fun _ => rfl
      have hm : Moves s ((s.lock c lk).setStack (s.thread c) (new ++ rest)) (s.thread c)
          (new ++ rest) := ⟨fun c' => (hsame c').1, fun c' => (hsame c').2, fun _ => rfl, rfl⟩
      refine h.replace hst hm hf hy hk hsees ⟨h.locks.one.acquire hfree c, fun c' => ?_, fun c' q => ?_⟩
      · have hnoff : ((s.lock c lk).cpu c').noff = _ :=
          setCpu_noff s c c' fun r => { r with noff := r.noff + 1 }
        show ((s.lock c lk).cpu c').noff = Spin.Held.count ((lk, c) :: s.locks) c'
        rw [hnoff, Spin.Held.count_acquire, ← h.locks.noff c']
        by_cases hc : c' = c
        · subst hc
          simp
        · simp [hc]
      · show (.proc q, c') ∈ (lk, c) :: s.locks ↔ _
        rw [thread_congr hm.cur, hm.stack, List.mem_cons, h.locks.held]
        by_cases hc : c' = c
        · subst hc
          rw [Function.update_self, topHolds_append (h.rest_holds hst), htop, hst]
          simp only [topHolds, Prod.mk.injEq, and_true]
          rw [or_comm, @eq_comm _ lk]
        · rw [Function.update_of_ne fun ht => hc (h.thread_inj ht)]
          simp [hc]
    · cases hs'

theorem SchedInv.release (h : SchedInv s) (hst : s.stack (s.thread c) = f :: rest)
    (hf : Follows f new) (hy : Stays f new) (hk : Keeps f new)
    (hsees : ∀ g ∈ new, ∀ q x, g.sees = some (q, x) → (s.proc q).state = x)
    (htop : ∀ q, topHolds new = some q ↔ f.holds = some q ∧ lk ≠ .proc q) :
    SchedInv (s.release c lk fun s' => s'.setStack (s.thread c) (new ++ rest)) := by
  unfold Sys.release
  split
  · rename_i hmem
    have hsame := fun c' => setCpu_same s c c' (u := fun r => { r with noff := r.noff - 1 })
      (fun _ => rfl) fun _ => rfl
    have hm : Moves s ((s.unlock c lk).setStack (s.thread c) (new ++ rest)) (s.thread c)
        (new ++ rest) := ⟨fun c' => (hsame c').1, fun c' => (hsame c').2, fun _ => rfl, rfl⟩
    refine h.replace hst hm hf hy hk hsees ⟨h.locks.one.release _, fun c' => ?_, fun c' q => ?_⟩
    · have hnoff : ((s.unlock c lk).cpu c').noff = _ :=
        setCpu_noff s c c' fun r => { r with noff := r.noff - 1 }
      show ((s.unlock c lk).cpu c').noff = Spin.Held.count (s.locks.erase (lk, c)) c'
      have hcount := Spin.Held.count_release hmem c'
      rw [← h.locks.noff c'] at hcount
      rw [hnoff]
      by_cases hc : c' = c
      · subst hc
        simp only [if_true] at hcount ⊢
        omega
      · simp only [if_neg hc] at hcount ⊢
        exact hcount
    · show (.proc q, c') ∈ s.locks.erase (lk, c) ↔ _
      rw [thread_congr hm.cur, hm.stack, h.locks.one.mem_release hmem]
      by_cases hc : c' = c
      · subst hc
        rw [Function.update_self, topHolds_append (h.rest_holds hst), htop, h.locks.held, hst]
        rw [and_comm, ne_comm]
        rfl
      · rw [Function.update_of_ne fun ht => hc (h.thread_inj ht), ← h.locks.held]
        refine ⟨fun hq => hq.2, fun hq => ⟨?_, hq⟩⟩
        rintro rfl
        exact hc (h.locks.one.holder_eq hq hmem)
  · exact h.halt _

end Instructions

/-! ## Stores to the state of a process -/

section States

variable {s : Sys m n} {c : Fin m} {f g g' : Frame n} {rest : List (Frame n)} {q : Fin n}
  {u : Proc n → Proc n} {t t' : Thread m n}

theorem setPcb_state (s : Sys m n) (q r : Fin n) (u : Proc n → Proc n) :
    ((s.setPcb q u).proc r).state = if r = q then (u (s.proc q)).state else (s.proc r).state := by
  by_cases h : r = q
  · subst h
    simp [Sys.setPcb]
  · simp [Sys.setPcb, h]

/-- How a store to the state of `q` goes with the process that the frame is
making: it makes none, it begins to make `q`, or it is done with `q`. -/
def Makes (s : Sys m n) (q : Fin n) (f g : Frame n) (x : ProcState) : Prop :=
  (f.child = none ∧ g.child = none ∧ (s.proc q).state ≠ .used) ∨
  (f.child = none ∧ g.child = some q ∧ ¬ g.Ready ∧ (s.proc q).state ≠ .used ∧ x = .used) ∨
  (f.child = some q ∧ g.child = none)

/-- No other frame is making the process. -/
theorem SchedInv.child_unique (h : SchedInv s) (hst : s.stack (s.thread c) = f :: rest)
    (hf : f.child = some q) {g : Frame n} (hg : g ∈ Function.update s.stack (s.thread c) rest t) :
    g.child ≠ some q := by
  intro hq
  have hfq : q ∈ children (s.stack (s.thread c)) := by
    rw [hst]
    exact mem_children.mpr ⟨f, List.mem_cons_self, hf⟩
  by_cases ht : t = s.thread c
  · rw [ht, Function.update_self] at hg
    have hn := h.frames.nodup (s.thread c)
    rw [hst, children_cons, hf] at hn
    exact (List.nodup_cons.mp hn).1 (mem_children.mpr ⟨g, hg, hq⟩)
  · rw [Function.update_of_ne ht] at hg
    exact ht (h.frames.disjoint t _ q (mem_children.mpr ⟨g, hg, hq⟩) hfq)

/-- The frames after the step: the new one, or frames that were there before and
are not the one that took the step. -/
theorem mem_update_cons {st : Thread m n → List (Frame n)} {g : Frame n}
    (h : g' ∈ Function.update st t (g :: rest) t') :
    (t' = t ∧ g' = g) ∨ g' ∈ Function.update st t rest t' := by
  by_cases ht : t' = t
  · subst ht
    rw [Function.update_self] at h ⊢
    rcases List.mem_cons.mp h with rfl | h
    · exact .inl ⟨rfl, rfl⟩
    · exact .inr h
  · rw [Function.update_of_ne ht] at h ⊢
    exact .inr h

theorem mem_of_mem_update (hst : s.stack t = f :: rest)
    (h : g' ∈ Function.update s.stack t rest t') : g' ∈ s.stack t' := by
  by_cases ht : t' = t
  · subst ht
    rw [Function.update_self] at h
    rw [hst]
    exact List.mem_cons_of_mem _ h
  · rwa [Function.update_of_ne ht] at h

/-- The frame that takes the step holds the lock of `q`, so no other frame sees
`q`. -/
theorem SchedInv.sees_unique (h : SchedInv s) (hst : s.stack (s.thread c) = f :: rest)
    (hf : f.holds = some q) {g : Frame n} {x : ProcState}
    (hg : g ∈ Function.update s.stack (s.thread c) rest t) : g.sees ≠ some (q, x) := by
  intro hs
  obtain ⟨c', rest', rfl, htop, hlock⟩ := h.sees_top (mem_of_mem_update hst hg) hs
  have hcc : c' = c := by
    refine h.locks.one.holder_eq hlock ?_
    rw [h.locks.held, hst]
    exact hf
  subst hcc
  rw [Function.update_self] at hg
  have := h.rest_holds hst g hg
  rw [(Frame.holds_of_sees hs).1] at this
  cases this

theorem StacksOk.storeState (h : SchedInv s) (hst : s.stack (s.thread c) = f :: rest)
    (hq : f.holds = some q) (hruns : ∀ t : Thread m n, f.RunsOn t → g.RunsOn t)
    (hsees : ∀ r x, g.sees = some (r, x) → r = q ∧ x = (u (s.proc q)).state)
    (hmk : Makes s q f g (u (s.proc q)).state) :
    StacksOk ((s.setStack (s.thread c) ([g] ++ rest)).setPcb q u) := by
  have hstate := setPcb_state (s.setStack (s.thread c) ([g] ++ rest)) q
  have hmem : ∀ g, g ∈ f :: rest → g ∈ s.stack (s.thread c) := fun g hg => by rw [hst]; exact hg
  have hother : ∀ t, t ≠ s.thread c →
      Function.update s.stack (s.thread c) (g :: rest) t = s.stack t := fun t ht =>
    Function.update_of_ne ht _ _
  -- the children of a thread, without the frame that takes the step
  have hless : ∀ t, children (Function.update s.stack (s.thread c) rest t) ⊆
      children (s.stack t) := by
    intro t r hr
    obtain ⟨g', hg', hr'⟩ := mem_children.mp hr
    exact mem_children.mpr ⟨g', mem_of_mem_update hst hg', hr'⟩
  have hnotq : (s.proc q).state ≠ .used → ∀ t, q ∉ children (s.stack t) := by
    intro hne t hr
    obtain ⟨g', hg', hr'⟩ := mem_children.mp hr
    exact hne (h.frames.used t g' q hg' hr').1
  refine ⟨fun t g' hg' => ?_, fun t g' hg' => ?_, fun t g' r x hg' hx => ?_,
    fun t g' r hg' hr => ?_, fun t => ?_, fun t t' r hr hr' => ?_⟩
  · rcases mem_update_cons hg' with ⟨rfl, rfl⟩ | hg'
    · exact hruns _ (h.frames.runsOn _ f (hmem f List.mem_cons_self))
    · exact h.frames.runsOn t g' (mem_of_mem_update hst hg')
  · change g' ∈ (Function.update s.stack (s.thread c) (g :: rest) t).tail at hg'
    by_cases ht : t = s.thread c
    · rw [ht, Function.update_self] at hg'
      exact h.rest_holds hst g' hg'
    · rw [hother t ht] at hg'
      exact h.frames.lower t g' hg'
  · rw [hstate]
    rcases mem_update_cons hg' with ⟨rfl, rfl⟩ | hgo
    · obtain ⟨rfl, rfl⟩ := hsees r x hx
      exact ⟨if_pos rfl, c, rfl⟩
    · have hrq : r ≠ q := by
        rintro rfl
        exact h.sees_unique hst hq hgo hx
      rw [if_neg hrq]
      exact h.frames.sees t g' r x (mem_of_mem_update hst hgo) hx
  · rw [hstate]
    rcases mem_update_cons hg' with ⟨rfl, rfl⟩ | hgo
    · rcases hmk with ⟨-, hc, -⟩ | ⟨-, hc, hnr, -, hx⟩ | ⟨-, hc⟩
      · rw [hc] at hr
        cases hr
      · rw [hc] at hr
        cases hr
        exact ⟨by rw [if_pos rfl]; exact hx, fun hready => absurd hready hnr⟩
      · rw [hc] at hr
        cases hr
    · obtain ⟨hused, hctx⟩ := h.frames.used t g' r (mem_of_mem_update hst hgo) hr
      have hrq : r ≠ q := by
        rintro rfl
        rcases hmk with ⟨-, -, hne⟩ | ⟨-, -, -, hne, -⟩ | ⟨hc, -⟩
        · exact hne hused
        · exact hne hused
        · exact h.child_unique hst hc hgo hr
      rw [if_neg hrq]
      refine ⟨hused, fun hready => ?_⟩
      show Function.update s.stack (s.thread c) (g :: rest) (.proc r) = _
      rw [hother _ (h.thread_ne c (.inr hused)).symm]
      exact hctx hready
  · show (children (Function.update s.stack (s.thread c) (g :: rest) t)).Nodup
    by_cases ht : t = s.thread c
    · have hn := h.frames.nodup (s.thread c)
      rw [ht, Function.update_self]
      rw [hst, children_cons] at hn
      rw [children_cons]
      rcases hmk with ⟨hf, hc, -⟩ | ⟨-, hc, -, hne, -⟩ | ⟨-, hc⟩
      · rw [hc]
        exact (List.nodup_append.mp hn).2.1
      · rw [hc]
        refine List.nodup_cons.mpr ⟨fun hr => ?_, (List.nodup_append.mp hn).2.1⟩
        refine hnotq hne (s.thread c) ?_
        rw [hst, children_cons]
        exact List.mem_append_right _ hr
      · rw [hc]
        exact (List.nodup_append.mp hn).2.1
    · rw [hother t ht]
      exact h.frames.nodup t
  · -- `q` itself has no other maker, all other children were there before
    have hold : ∀ t, r ∈ children (Function.update s.stack (s.thread c) (g :: rest) t) →
        (r ∈ children (s.stack t)) ∨ (t = s.thread c ∧ r = q ∧ (s.proc q).state ≠ .used) := by
      intro t hr
      obtain ⟨g', hg', hch⟩ := mem_children.mp hr
      rcases mem_update_cons hg' with ⟨rfl, rfl⟩ | hgo
      · rcases hmk with ⟨-, hc, -⟩ | ⟨-, hc, -, hne, -⟩ | ⟨-, hc⟩
        · rw [hc] at hch
          cases hch
        · rw [hc] at hch
          cases hch
          exact .inr ⟨rfl, rfl, hne⟩
        · rw [hc] at hch
          cases hch
      · exact .inl (hless t (mem_children.mpr ⟨g', hgo, hch⟩))
    rcases hold t hr with h1 | ⟨rfl, rfl, hne⟩
    · rcases hold t' hr' with h2 | ⟨-, rfl, hne⟩
      · exact h.frames.disjoint t t' r h1 h2
      · exact absurd h1 (hnotq hne t)
    · rcases hold t' hr' with h2 | ⟨rfl, -, -⟩
      · exact absurd h2 (hnotq hne t')
      · rfl

/-- A new state for a process that no CPU claims. -/
theorem CpusOk.setState (h : CpusOk s) (hno : ∀ c, ¬ s.Claims c q)
    (hy : (u (s.proc q)).state ≠ .running)
    (hlive : (u (s.proc q)).state.Live → ∃ f rest, s.stack (.proc q) = f :: rest ∧ f.Resumes q) :
    CpusOk (s.setPcb q u) := by
  have hstate := fun r => setPcb_state s q r u
  refine ⟨h.sched, fun c p hc => ?_, fun c p hc hs => ?_, fun c p hc hs => ?_, h.uniq,
    fun p hp => ?_, fun p hoff hl => ?_⟩
  · obtain ⟨hst, hown⟩ := h.onProc c p hc
    have hpq : p ≠ q := by
      rintro rfl
      exact hno c ⟨_, hst, rfl⟩
    exact ⟨hst, by rw [hstate, if_neg hpq]; exact hown⟩
  · have hpq : p ≠ q := by
      rintro rfl
      rcases hs with hs | hs <;> exact hno c ⟨_, hs, rfl⟩
    rw [hstate, if_neg hpq]
    exact h.before c p hc hs
  · have hpq : p ≠ q := by
      rintro rfl
      exact hno c ⟨_, hs, rfl⟩
    rw [hstate, if_neg hpq]
    exact h.after c p hc hs
  · rw [hstate]
    split
    · exact hy
    · exact h.idle p hp
  · rw [hstate] at hl
    split at hl
    · rename_i hpq
      subst hpq
      exact hlive hl
    · exact h.resume p hoff hl

/-- A store to the state of another process, whose lock the frame holds. -/
theorem SchedInv.storeOther (h : SchedInv s) (hst : s.stack (s.thread c) = f :: rest)
    (hq : f.holds = some q) (hg : g.holds = some q)
    (hruns : ∀ t : Thread m n, f.RunsOn t → g.RunsOn t) (hf : Stays f [g]) (hown : f.own = .running)
    (hns : ∀ pc, f ≠ .scheduler pc)
    (hsees : ∀ r x, g.sees = some (r, x) → r = q ∧ x = (u (s.proc q)).state)
    (hmk : Makes s q f g (u (s.proc q)).state) (hx : (s.proc q).state ≠ .running)
    (hy : (u (s.proc q)).state ≠ .running)
    (hlive : (u (s.proc q)).state.Live → ∃ f' rest', s.stack (.proc q) = f' :: rest' ∧ f'.Resumes q) :
    SchedInv ((s.setStack (s.thread c) ([g] ++ rest)).setPcb q u) := by
  have hm : Moves s (s.setStack (s.thread c) ([g] ++ rest)) (s.thread c) ([g] ++ rest) :=
    ⟨fun _ => rfl, fun _ => rfl, fun _ => rfl, rfl⟩
  have hno : ∀ c', ¬ s.Claims c' q :=
    h.not_claims hst hq hown (fun pc he => absurd he (hns pc)) hx
  have hne : Thread.proc q ≠ s.thread c := fun ht =>
    hno c (h.claims_of_cur (thread_eq_proc.mp ht.symm))
  have hl : LocksOk (s.setStack (s.thread c) ([g] ++ rest)) :=
    .same h hst hm rfl (fun _ => rfl) (by rw [hq]; exact hg)
  refine ⟨⟨hl.one, hl.noff, hl.held⟩, .storeState h hst hq hruns hsees hmk,
    (CpusOk.replace h hst hm hf).setState (fun c' hc' => ?_) hy fun hl => ?_⟩
  · exact hno c' ((h.claims_replace hst hm hf c' q).mp hc')
  · obtain ⟨f', rest', hst', hr⟩ := hlive hl
    exact ⟨f', rest', by rw [Sys.stack_setStack_of_ne _ hne, hst'], hr⟩

end States

/-! ## Steps of one CPU and one process -/

section Switch

variable {s s' : Sys m n} {c : Fin m} {p : Fin n}

/-- A step of CPU `c` that concerns the process `p` only, which no other CPU
claims. -/
structure Concerns (s s' : Sys m n) (c : Fin m) (p : Fin n) : Prop where
  cpu : ∀ c', c' ≠ c → s'.cpu c' = s.cpu c'
  sched : ∀ c', c' ≠ c → s'.stack (.scheduler c') = s.stack (.scheduler c')
  state : ∀ r, r ≠ p → (s'.proc r).state = (s.proc r).state
  stack : ∀ r, r ≠ p → s'.stack (.proc r) = s.stack (.proc r)
  others : ∀ c', c' ≠ c → ¬ s.Claims c' p
  claims : ∀ r, r ≠ p → ¬ s.Claims c r
  claims' : ∀ r, r ≠ p → ¬ s'.Claims c r

/-- What has to be shown of `c` and `p` after such a step. -/
structure CpuOk (s : Sys m n) (c : Fin m) (p : Fin n) : Prop where
  sched : ∃ pc, SchedStack (s.stack (.scheduler c)) pc ∧ (s.cpu c).proc = pc.proc
  cur : (s.cpu c).cur = none ∨ (s.cpu c).cur = some p
  onProc : (s.cpu c).cur = some p → s.stack (.scheduler c) = [.scheduler (.clearProc p)] ∧
    (s.proc p).state = topOwn (s.stack (.proc p))
  before : (s.cpu c).cur = none → s.stack (.scheduler c) = [.scheduler (.setProc p)] ∨
    s.stack (.scheduler c) = [.scheduler (.swtch p)] → (s.proc p).state = .running
  after : (s.cpu c).cur = none → s.stack (.scheduler c) = [.scheduler (.clearProc p)] →
    (s.proc p).state.Left
  idle : ¬ s.Claims c p → (s.proc p).state ≠ .running
  resume : (s.cpu c).cur = none → (s.proc p).state.Live →
    ∃ f rest, s.stack (.proc p) = f :: rest ∧ f.Resumes p

theorem CpusOk.concerns (h : SchedInv s) (hc : Concerns s s' c p) (ho : CpuOk s' c p) :
    CpusOk s' := by
  have hclaims : ∀ c', c' ≠ c → ∀ r, s'.Claims c' r ↔ s.Claims c' r := by
    intro c' hcc r
    unfold Sys.Claims
    rw [hc.sched c' hcc]
  have hrp : ∀ c', c' ≠ c → ∀ r, s.Claims c' r → r ≠ p := by
    rintro c' hcc r hr rfl
    exact hc.others c' hcc hr
  have hcp : ∀ pc r, s'.stack (.scheduler c) = [.scheduler pc] → pc.claim = some r → r = p := by
    intro pc r hst hcl
    by_contra hne
    exact hc.claims' r hne ⟨pc, hst, hcl⟩
  refine ⟨fun c' => ?_, fun c' r hr => ?_, fun c' r hr hs => ?_, fun c' r hr hs => ?_,
    fun c₁ c₂ r h1 h2 => ?_, fun r hr => ?_, fun r hoff hlive => ?_⟩
  · by_cases hcc : c' = c
    · rw [hcc]
      exact ho.sched
    · rw [hc.sched c' hcc, hc.cpu c' hcc]
      exact h.cpus.sched c'
  · by_cases hcc : c' = c
    · rw [hcc] at hr ⊢
      have : r = p := by
        rcases ho.cur with he | he <;> rw [he] at hr <;> cases hr
        rfl
      subst this
      exact ho.onProc hr
    · rw [hc.cpu c' hcc] at hr
      have hne := hrp c' hcc r (h.claims_of_cur hr)
      rw [hc.sched c' hcc, hc.state r hne, hc.stack r hne]
      exact h.cpus.onProc c' r hr
  · by_cases hcc : c' = c
    · rw [hcc] at hr hs
      have : r = p := by
        rcases hs with hs | hs <;> exact hcp _ r hs rfl
      subst this
      exact ho.before hr hs
    · rw [hc.cpu c' hcc] at hr
      rw [hc.sched c' hcc] at hs
      have hcl : s.Claims c' r := by
        rcases hs with hs | hs <;> exact ⟨_, hs, rfl⟩
      rw [hc.state r (hrp c' hcc r hcl)]
      exact h.cpus.before c' r hr hs
  · by_cases hcc : c' = c
    · rw [hcc] at hr hs
      have : r = p := hcp _ r hs rfl
      subst this
      exact ho.after hr hs
    · rw [hc.cpu c' hcc] at hr
      rw [hc.sched c' hcc] at hs
      rw [hc.state r (hrp c' hcc r ⟨_, hs, rfl⟩)]
      exact h.cpus.after c' r hr hs
  · by_cases hr : r = p
    · subst hr
      have honly : ∀ c', s'.Claims c' r → c' = c := by
        intro c' hcl
        by_contra hcc
        exact hc.others c' hcc ((hclaims c' hcc r).mp hcl)
      rw [honly c₁ h1, honly c₂ h2]
    · have hother : ∀ c', s'.Claims c' r → c' ≠ c := by
        rintro c' hcl rfl
        exact hc.claims' r hr hcl
      exact h.cpus.uniq c₁ c₂ r ((hclaims c₁ (hother c₁ h1) r).mp h1)
        ((hclaims c₂ (hother c₂ h2) r).mp h2)
  · by_cases hrp' : r = p
    · subst hrp'
      exact ho.idle (hr c)
    · rw [hc.state r hrp']
      refine h.cpus.idle r fun c' hcl => ?_
      by_cases hcc : c' = c
      · subst hcc
        exact hc.claims r hrp' hcl
      · exact hr c' ((hclaims c' hcc r).mpr hcl)
  · by_cases hrp' : r = p
    · subst hrp'
      refine ho.resume ?_ hlive
      rcases ho.cur with he | he
      · exact he
      · exact absurd he (hoff c)
    · rw [hc.stack r hrp']
      rw [hc.state r hrp'] at hlive
      refine h.cpus.resume r (fun c' hcur => ?_) hlive
      by_cases hcc : c' = c
      · subst hcc
        exact hc.claims r hrp' (h.claims_of_cur hcur)
      · exact hoff c' (by rw [hc.cpu c' hcc]; exact hcur)

end Switch

end Xv6
