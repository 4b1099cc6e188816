import Xv6.Lib.Spin
import Xv6.Lib.Run

/-!
# Kernel threads and the scheduler

The process table, the CPUs and the functions of `kernel/proc.c` that schedule:
`scheduler`, `sched`, `yield`, `forkret`, `sleep`, `wakeup`, `kill`, `exit`,
`wait` and `fork` with `allocproc` and `freeproc`.

Every CPU has a scheduler thread and every process has a kernel thread.  The
stack of a thread is a list of frames, the innermost call first.  A frame is a
function with its local variables and the point it has reached, and `code` gives
the next instruction of a frame: one acquire, store, `swtch` or release, with
the loads before it.  `cur` says on whose kernel stack a CPU executes, and only
`swtch` changes it.  While no CPU is on the stack of a thread, the stack is what
the saved context of the thread leads back to.

A process whose stack is empty is between calls, in user space or elsewhere in
the kernel.  It may call any of the functions, and acquire and release other
locks.  While a CPU holds no lock an interrupt may come at any point, also in
the middle of one of the functions and in the scheduler.  It calls `wakeup`, or
`yield` on a CPU that runs a process.
-/

namespace Xv6

/-! ## The process table -/

/-- `enum procstate`. -/
inductive ProcState where
  | unused
  | used
  | sleeping
  | runnable
  | running
  | zombie
deriving DecidableEq

/-- A wait channel, an address.  A process waits for its children on its own. -/
inductive Chan (n : Nat) where
  | null
  | proc (p : Fin n)
  | other (k : Nat)
deriving DecidableEq

/-- The spin locks: `p->lock`, `wait_lock`, `pid_lock` and all others. -/
inductive Lock (n : Nat) where
  | proc (p : Fin n)
  | wait
  | pid
  | other (k : Nat)
deriving DecidableEq

/-- The fields of `struct proc` that `p->lock` and `wait_lock` protect. -/
structure Proc (n : Nat) where
  state : ProcState
  chan : Chan n
  killed : Bool
  xstate : Int
  pid : Int
  parent : Option (Fin n)

/-- `struct cpu`, with the kernel stack that the CPU executes on. -/
structure Cpu (n : Nat) where
  /-- The process running on this cpu, or null. -/
  proc : Option (Fin n)
  /-- The process whose kernel stack is in use, null for the scheduler's. -/
  cur : Option (Fin n)
  /-- Depth of `push_off()` nesting. -/
  noff : Nat

/-! ## Frames -/

/-- Points of `scheduler`. -/
inductive SchedulerPc (n : Nat) where
  | acquire (i : Nat)
  | test (p : Fin n)
  | setProc (p : Fin n)
  | swtch (p : Fin n)
  | clearProc (p : Fin n)
  | release (p : Fin n)

/-- Points of `yield`. -/
inductive YieldPc where
  | acquire
  | setState
  | sched
  | release

/-- Points of `sleep`. -/
inductive SleepPc where
  | acquire
  | releaseLk
  | setChan
  | setState
  | sched
  | clearChan
  | release
  | acquireLk

/-- Points of `wakeup`. -/
inductive WakeupPc (n : Nat) where
  | next (i : Nat)
  | test (p : Fin n)
  | release (p : Fin n)

/-- Points of `kill`. -/
inductive KillPc (n : Nat) where
  | acquire (i : Nat)
  | test (p : Fin n)
  | setState (p : Fin n)
  | release (p : Fin n) (found : Bool)

/-- Points of `setkilled`, and of `killed`, which stores nothing. -/
inductive KilledPc where
  | acquire
  | store
  | release

/-- Points of `exit`, from `acquire(&wait_lock)` on. -/
inductive ExitPc where
  | acquireWait
  | reparent (i : Nat)
  | wakeupParent
  | acquire
  | setXstate
  | setState
  | releaseWait
  | sched
  | zombie

/-- Points of `wait`. -/
inductive WaitPc (n : Nat) where
  | acquireWait
  | scan (i : Nat) (havekids : Bool)
  | acquire (pp : Fin n)
  | test (pp : Fin n)
  | copyout (pp : Fin n)
  | freeFields (pp : Fin n)
  | freeState (pp : Fin n)
  | release (pp : Fin n)
  | releaseNext (pp : Fin n)
  | killedAcquire
  | killedTest
  | killedRelease (k : Bool)
  | sleep
  | releaseWait

/-- Points of `fork`, with `allocproc`, `allocpid` and `freeproc` in line. -/
inductive ForkPc (n : Nat) where
  | acquire (i : Nat)
  | test (np : Fin n)
  | releaseNext (np : Fin n)
  | pidAcquire (np : Fin n)
  | pidNext (np : Fin n)
  | pidRelease (np : Fin n) (pid : Int)
  | setPid (np : Fin n) (pid : Int)
  | setUsed (np : Fin n)
  | alloc (np : Fin n)
  | setContext (np : Fin n)
  | copy (np : Fin n)
  | release (np : Fin n)
  | acquireWait (np : Fin n)
  | setParent (np : Fin n)
  | releaseWait (np : Fin n)
  | reacquire (np : Fin n)
  | setRunnable (np : Fin n)
  | releaseLast (np : Fin n)
  | freeFields (np : Fin n)
  | freeState (np : Fin n)

/-- An activation of a function.  `p` is the function's `myproc()`. -/
inductive Frame (n : Nat) where
  | scheduler (pc : SchedulerPc n)
  | forkret (p : Fin n)
  | yield (p : Fin n) (pc : YieldPc)
  | sleep (p : Fin n) (chan : Chan n) (lk : Lock n) (pc : SleepPc)
  | wakeup (chan : Chan n) (pc : WakeupPc n)
  | kill (pid : Int) (pc : KillPc n)
  | setkilled (q : Fin n) (pc : KilledPc)
  | killed (q : Fin n) (pc : KilledPc)
  | exit (p : Fin n) (status : Int) (pc : ExitPc)
  | wait (p : Fin n) (pc : WaitPc n)
  | fork (p : Fin n) (pc : ForkPc n)

/-- A kernel thread. -/
inductive Thread (m n : Nat) where
  | scheduler (c : Fin m)
  | proc (p : Fin n)
deriving DecidableEq

/-- The calls of `panic` in the modelled code. -/
inductive SchedPanic where
  /-- `acquire` of a lock this cpu holds. -/
  | acquire
  /-- `release` of a lock this cpu does not hold. -/
  | release
  | schedPLock
  | schedLocks
  | schedRunning
  | zombieExit
  | initExiting
deriving DecidableEq

/-- `m` CPUs and `n` process slots. -/
structure Sys (m n : Nat) where
  cpu : Fin m → Cpu n
  proc : Fin n → Proc n
  locks : Spin.Held (Lock n) (Fin m)
  stack : Thread m n → List (Frame n)
  nextpid : Int
  initproc : Fin n
  panic : Option SchedPanic

/-! ## Instructions -/

/-- One instruction and the frames that replace the frame that executes it. -/
inductive Instr (n : Nat) where
  | acquire (lk : Lock n) (next : List (Frame n))
  | release (lk : Lock n) (next : List (Frame n))
  /-- Store to fields of a process. -/
  | store (q : Fin n) (f : Proc n → Proc n) (next : List (Frame n))
  /-- `nextpid = pid`. -/
  | setNextpid (pid : Int) (next : List (Frame n))
  /-- `c->proc = x`. -/
  | setProc (x : Option (Fin n)) (next : List (Frame n))
  /-- The context of a new process is set to start at `forkret`. -/
  | setContext (q : Fin n) (next : List (Frame n))
  /-- `swtch(&c->context, &p->context)` in `scheduler`. -/
  | swtch (p : Fin n) (next : List (Frame n))
  /-- `sched()`, which ends in `swtch(&p->context, &mycpu()->context)`. -/
  | sched (next : List (Frame n))
  /-- Only loads: a test, a call or a return. -/
  | goto (next : List (Frame n))
  | panic (e : SchedPanic)

section Code

variable {m n : Nat}

/-- `freeproc`, all stores but the last. -/
def Proc.free (q : Proc n) : Proc n :=
  { q with pid := 0, parent := none, chan := .null, killed := false, xstate := 0 }

def schedulerCode (s : Sys m n) : SchedulerPc n → Instr n
  | .acquire i =>
      if h : i < n then .acquire (.proc ⟨i, h⟩) [.scheduler (.test ⟨i, h⟩)]
      else .goto [.scheduler (.acquire 0)]
  | .test p =>
      if (s.proc p).state = .runnable then
        .store p (fun q => { q with state := .running }) [.scheduler (.setProc p)]
      else .goto [.scheduler (.release p)]
  | .setProc p => .setProc (some p) [.scheduler (.swtch p)]
  | .swtch p => .swtch p [.scheduler (.clearProc p)]
  | .clearProc p => .setProc none [.scheduler (.release p)]
  | .release p => .release (.proc p) [.scheduler (.acquire (p + 1))]

def yieldCode (p : Fin n) : YieldPc → Instr n
  | .acquire => .acquire (.proc p) [.yield p .setState]
  | .setState => .store p (fun q => { q with state := .runnable }) [.yield p .sched]
  | .sched => .sched [.yield p .release]
  | .release => .release (.proc p) []

def sleepCode (p : Fin n) (chan : Chan n) (lk : Lock n) : SleepPc → Instr n
  | .acquire => .acquire (.proc p) [.sleep p chan lk .releaseLk]
  | .releaseLk => .release lk [.sleep p chan lk .setChan]
  | .setChan => .store p (fun q => { q with chan := chan }) [.sleep p chan lk .setState]
  | .setState => .store p (fun q => { q with state := .sleeping }) [.sleep p chan lk .sched]
  | .sched => .sched [.sleep p chan lk .clearChan]
  | .clearChan => .store p (fun q => { q with chan := .null }) [.sleep p chan lk .release]
  | .release => .release (.proc p) [.sleep p chan lk .acquireLk]
  | .acquireLk => .acquire lk []

/-- `me` is `myproc()`. -/
def wakeupCode (s : Sys m n) (me : Option (Fin n)) (chan : Chan n) : WakeupPc n → Instr n
  | .next i =>
      if h : i < n then
        if me = some ⟨i, h⟩ then .goto [.wakeup chan (.next (i + 1))]
        else .acquire (.proc ⟨i, h⟩) [.wakeup chan (.test ⟨i, h⟩)]
      else .goto []
  | .test p =>
      if (s.proc p).state = .sleeping ∧ (s.proc p).chan = chan then
        .store p (fun q => { q with state := .runnable }) [.wakeup chan (.release p)]
      else .goto [.wakeup chan (.release p)]
  | .release p => .release (.proc p) [.wakeup chan (.next (p + 1))]

def killCode (s : Sys m n) (pid : Int) : KillPc n → Instr n
  | .acquire i => if h : i < n then .acquire (.proc ⟨i, h⟩) [.kill pid (.test ⟨i, h⟩)] else .goto []
  | .test p =>
      if (s.proc p).pid = pid then
        .store p (fun q => { q with killed := true }) [.kill pid (.setState p)]
      else .goto [.kill pid (.release p false)]
  | .setState p =>
      if (s.proc p).state = .sleeping then
        .store p (fun q => { q with state := .runnable }) [.kill pid (.release p true)]
      else .goto [.kill pid (.release p true)]
  | .release p found => .release (.proc p) (if found then [] else [.kill pid (.acquire (p + 1))])

def setkilledCode (q : Fin n) : KilledPc → Instr n
  | .acquire => .acquire (.proc q) [.setkilled q .store]
  | .store => .store q (fun r => { r with killed := true }) [.setkilled q .release]
  | .release => .release (.proc q) []

/-- The result is for the caller, who may do anything. -/
def killedCode (q : Fin n) : KilledPc → Instr n
  | .acquire => .acquire (.proc q) [.killed q .store]
  | .store => .goto [.killed q .release]
  | .release => .release (.proc q) []

def exitCode (s : Sys m n) (p : Fin n) (status : Int) : ExitPc → Instr n
  | .acquireWait => .acquire .wait [.exit p status (.reparent 0)]
  | .reparent i =>
      if h : i < n then
        if (s.proc ⟨i, h⟩).parent = some p then
          .store ⟨i, h⟩ (fun q => { q with parent := some s.initproc })
            [.wakeup (.proc s.initproc) (.next 0), .exit p status (.reparent (i + 1))]
        else .goto [.exit p status (.reparent (i + 1))]
      else .goto [.exit p status .wakeupParent]
  | .wakeupParent =>
      .goto [.wakeup ((s.proc p).parent.elim .null .proc) (.next 0), .exit p status .acquire]
  | .acquire => .acquire (.proc p) [.exit p status .setXstate]
  | .setXstate => .store p (fun q => { q with xstate := status }) [.exit p status .setState]
  | .setState => .store p (fun q => { q with state := .zombie }) [.exit p status .releaseWait]
  | .releaseWait => .release .wait [.exit p status .sched]
  | .sched => .sched [.exit p status .zombie]
  | .zombie => .panic .zombieExit

/-- `ok` is whether `copyout` succeeds. -/
def waitCode (s : Sys m n) (ok : Bool) (p : Fin n) : WaitPc n → Instr n
  | .acquireWait => .acquire .wait [.wait p (.scan 0 false)]
  | .scan i havekids =>
      if h : i < n then
        if (s.proc ⟨i, h⟩).parent = some p then .goto [.wait p (.acquire ⟨i, h⟩)]
        else .goto [.wait p (.scan (i + 1) havekids)]
      else if havekids then .goto [.wait p .killedAcquire]
      else .goto [.wait p .releaseWait]
  | .acquire pp => .acquire (.proc pp) [.wait p (.test pp)]
  | .test pp =>
      if (s.proc pp).state = .zombie then .goto [.wait p (.copyout pp)]
      else .goto [.wait p (.releaseNext pp)]
  | .copyout pp => if ok then .goto [.wait p (.freeFields pp)] else .goto [.wait p (.release pp)]
  | .freeFields pp => .store pp Proc.free [.wait p (.freeState pp)]
  | .freeState pp => .store pp (fun q => { q with state := .unused }) [.wait p (.release pp)]
  | .release pp => .release (.proc pp) [.wait p .releaseWait]
  | .releaseNext pp => .release (.proc pp) [.wait p (.scan (pp + 1) true)]
  | .killedAcquire => .acquire (.proc p) [.wait p .killedTest]
  | .killedTest => .goto [.wait p (.killedRelease (s.proc p).killed)]
  | .killedRelease k => .release (.proc p) (if k then [.wait p .releaseWait] else [.wait p .sleep])
  | .sleep => .goto [.sleep p (.proc p) .wait .acquire, .wait p (.scan 0 false)]
  | .releaseWait => .release .wait []

/-- `ok` is whether the allocations succeed. -/
def forkCode (s : Sys m n) (ok : Bool) (p : Fin n) : ForkPc n → Instr n
  | .acquire i => if h : i < n then .acquire (.proc ⟨i, h⟩) [.fork p (.test ⟨i, h⟩)] else .goto []
  | .test np =>
      if (s.proc np).state = .unused then .goto [.fork p (.pidAcquire np)]
      else .goto [.fork p (.releaseNext np)]
  | .releaseNext np => .release (.proc np) [.fork p (.acquire (np + 1))]
  | .pidAcquire np => .acquire .pid [.fork p (.pidNext np)]
  | .pidNext np =>
      .setNextpid (Int.bmod (s.nextpid + 1) (2 ^ 32)) [.fork p (.pidRelease np s.nextpid)]
  | .pidRelease np pid => .release .pid [.fork p (.setPid np pid)]
  | .setPid np pid => .store np (fun q => { q with pid := pid }) [.fork p (.setUsed np)]
  | .setUsed np => .store np (fun q => { q with state := .used }) [.fork p (.alloc np)]
  | .alloc np => if ok then .goto [.fork p (.setContext np)] else .goto [.fork p (.freeFields np)]
  | .setContext np => .setContext np [.fork p (.copy np)]
  | .copy np => if ok then .goto [.fork p (.release np)] else .goto [.fork p (.freeFields np)]
  | .release np => .release (.proc np) [.fork p (.acquireWait np)]
  | .acquireWait np => .acquire .wait [.fork p (.setParent np)]
  | .setParent np => .store np (fun q => { q with parent := some p }) [.fork p (.releaseWait np)]
  | .releaseWait np => .release .wait [.fork p (.reacquire np)]
  | .reacquire np => .acquire (.proc np) [.fork p (.setRunnable np)]
  | .setRunnable np =>
      .store np (fun q => { q with state := .runnable }) [.fork p (.releaseLast np)]
  | .releaseLast np => .release (.proc np) []
  | .freeFields np => .store np Proc.free [.fork p (.freeState np)]
  | .freeState np => .store np (fun q => { q with state := .unused }) [.fork p (.releaseLast np)]

/-- The next instruction of a frame on a CPU.  `ok` is whether what the frame
asks of other code succeeds. -/
def code (s : Sys m n) (c : Fin m) (ok : Bool) : Frame n → Instr n
  | .scheduler pc => schedulerCode s pc
  | .forkret p => .release (.proc p) []
  | .yield p pc => yieldCode p pc
  | .sleep p chan lk pc => sleepCode p chan lk pc
  | .wakeup chan pc => wakeupCode s (s.cpu c).proc chan pc
  | .kill pid pc => killCode s pid pc
  | .setkilled q pc => setkilledCode q pc
  | .killed q pc => killedCode q pc
  | .exit p status pc => exitCode s p status pc
  | .wait p pc => waitCode s ok p pc
  | .fork p pc => forkCode s ok p pc

end Code

/-! ## Steps -/

namespace Sys

variable {m n : Nat}

/-- The thread that a CPU executes. -/
def thread (s : Sys m n) (c : Fin m) : Thread m n := (s.cpu c).cur.elim (.scheduler c) .proc

/-- Replace the stack of a thread. -/
def setStack (s : Sys m n) (t : Thread m n) (fs : List (Frame n)) : Sys m n :=
  { s with stack := Function.update s.stack t fs }

/-- Change the record of a CPU. -/
def setCpu (s : Sys m n) (c : Fin m) (f : Cpu n → Cpu n) : Sys m n :=
  { s with cpu := Function.update s.cpu c (f (s.cpu c)) }

/-- Change the record of a process. -/
def setPcb (s : Sys m n) (q : Fin n) (f : Proc n → Proc n) : Sys m n :=
  { s with proc := Function.update s.proc q (f (s.proc q)) }

@[simp] theorem stack_setStack_self (s : Sys m n) (t : Thread m n) (fs : List (Frame n)) :
    (s.setStack t fs).stack t = fs := Function.update_self ..

theorem stack_setStack_of_ne (s : Sys m n) {t t' : Thread m n} (h : t' ≠ t)
    (fs : List (Frame n)) : (s.setStack t fs).stack t' = s.stack t' := Function.update_of_ne h ..

@[simp] theorem cpu_setCpu_self (s : Sys m n) (c : Fin m) (f : Cpu n → Cpu n) :
    (s.setCpu c f).cpu c = f (s.cpu c) := Function.update_self ..

theorem cpu_setCpu_of_ne (s : Sys m n) {c c' : Fin m} (h : c' ≠ c) (f : Cpu n → Cpu n) :
    (s.setCpu c f).cpu c' = s.cpu c' := Function.update_of_ne h ..

@[simp] theorem proc_setPcb_self (s : Sys m n) (q : Fin n) (f : Proc n → Proc n) :
    (s.setPcb q f).proc q = f (s.proc q) := Function.update_self ..

theorem proc_setPcb_of_ne (s : Sys m n) {q r : Fin n} (h : r ≠ q) (f : Proc n → Proc n) :
    (s.setPcb q f).proc r = s.proc r := Function.update_of_ne h ..

def halt (s : Sys m n) (e : SchedPanic) : Sys m n := { s with panic := some e }

/-- CPU `c` has the lock. -/
def lock (s : Sys m n) (c : Fin m) (lk : Lock n) : Sys m n :=
  { s.setCpu c (fun r => { r with noff := r.noff + 1 }) with locks := (lk, c) :: s.locks }

def unlock (s : Sys m n) (c : Fin m) (lk : Lock n) : Sys m n :=
  { s.setCpu c (fun r => { r with noff := r.noff - 1 }) with locks := s.locks.erase (lk, c) }

/-- `acquire`, which spins while another CPU holds the lock, and then `k`. -/
def acquire (s : Sys m n) (c : Fin m) (lk : Lock n) (k : Sys m n → Sys m n) : Option (Sys m n) :=
  if (lk, c) ∈ s.locks then some (s.halt .acquire)
  else if s.locks.Free lk then some (k (s.lock c lk))
  else none

/-- `release`, and then `k`. -/
def release (s : Sys m n) (c : Fin m) (lk : Lock n) (k : Sys m n → Sys m n) : Sys m n :=
  if (lk, c) ∈ s.locks then k (s.unlock c lk) else s.halt .release

/-- The tests of `sched`.  With `noff = 1` interrupts are off, which is the last
one. -/
def schedTests (s : Sys m n) (c : Fin m) : Option SchedPanic :=
  match (s.cpu c).proc with
  | none => some .schedPLock
  | some p =>
      if (.proc p, c) ∉ s.locks then some .schedPLock
      else if (s.cpu c).noff ≠ 1 then some .schedLocks
      else if (s.proc p).state = .running then some .schedRunning
      else none

/-- Execute an instruction of the thread `t` on CPU `c`.  `rest` is the stack
below the frame that executes it. -/
def exec (s : Sys m n) (c : Fin m) (t : Thread m n) (rest : List (Frame n)) :
    Instr n → Option (Sys m n)
  | .acquire lk next => s.acquire c lk fun s' => s'.setStack t (next ++ rest)
  | .release lk next => some (s.release c lk fun s' => s'.setStack t (next ++ rest))
  | .store q f next => some ((s.setStack t (next ++ rest)).setPcb q f)
  | .setNextpid pid next => some { s.setStack t (next ++ rest) with nextpid := pid }
  | .setProc x next => some ((s.setStack t (next ++ rest)).setCpu c fun r => { r with proc := x })
  | .setContext q next => some ((s.setStack t (next ++ rest)).setStack (.proc q) [.forkret q])
  | .swtch p next => some ((s.setStack t (next ++ rest)).setCpu c fun r => { r with cur := some p })
  | .sched next =>
      match s.schedTests c with
      | some e => some (s.halt e)
      | none => some ((s.setStack t (next ++ rest)).setCpu c fun r => { r with cur := none })
  | .goto next => some (s.setStack t (next ++ rest))
  | .panic e => some (s.halt e)

end Sys

/-- The functions a process may call. -/
inductive Call (n : Nat) where
  | yield
  | sleep (chan : Chan n) (k : Nat)
  | wakeup (chan : Chan n)
  | kill (pid : Int)
  | setkilled
  | killed
  | exit (status : Int)
  | wait
  | fork

/-- The first frame of a call. -/
def Call.frame {n : Nat} (p : Fin n) : Call n → Frame n
  | .yield => .yield p .acquire
  | .sleep chan k => .sleep p chan (.other k) .acquire
  | .wakeup chan => .wakeup chan (.next 0)
  | .kill pid => .kill pid (.acquire 0)
  | .setkilled => .setkilled p .acquire
  | .killed => .killed p .acquire
  | .exit status => .exit p status .acquireWait
  | .wait => .wait p .acquireWait
  | .fork => .fork p (.acquire 0)

/-- What a CPU does next. -/
inductive SchedAct (m n : Nat) where
  /-- The next instruction of the innermost frame. -/
  | run (c : Fin m) (ok : Bool)
  /-- The process calls a function. -/
  | call (c : Fin m) (f : Call n)
  /-- The process acquires a lock for itself. -/
  | acquire (c : Fin m) (k : Nat)
  | release (c : Fin m) (k : Nat)
  /-- A timer interrupt.  `kerneltrap` tests that the process is `RUNNING`, which
  it is whenever interrupts are on. -/
  | timer (c : Fin m)
  /-- Another interrupt, whose handler calls `wakeup`. -/
  | intr (c : Fin m) (chan : Chan n)

section Step

variable {m n : Nat}

/-- The next state, or `none` if the step is not possible. -/
def schedAct (s : Sys m n) : SchedAct m n → Option (Sys m n)
  | .run c ok =>
      match s.stack (s.thread c) with
      | [] => none
      | f :: rest => s.exec c (s.thread c) rest (code s c ok f)
  | .call c f =>
      if s.stack (s.thread c) = [] then
        match (s.cpu c).proc, f with
        | none, _ => none
        | some p, .exit status =>
            if p = s.initproc then some (s.halt .initExiting)
            else some (s.setStack (s.thread c) [Call.frame p (.exit status)])
        | some p, f => some (s.setStack (s.thread c) [Call.frame p f])
      else none
  | .acquire c k => if s.stack (s.thread c) = [] then s.acquire c (.other k) id else none
  | .release c k => if s.stack (s.thread c) = [] then some (s.release c (.other k) id) else none
  | .timer c =>
      if (s.cpu c).noff = 0 then
        match (s.cpu c).proc with
        | none => none
        | some p => some (s.setStack (s.thread c) (.yield p .acquire :: s.stack (s.thread c)))
      else none
  | .intr c chan =>
      if (s.cpu c).noff = 0 then
        some (s.setStack (s.thread c) (.wakeup chan (.next 0) :: s.stack (s.thread c)))
      else none

/-- After a panic no step is possible. -/
def schedStep (s : Sys m n) (a : SchedAct m n) : Option (Sys m n) :=
  if s.panic = none then schedAct s a else none

/-- The state after `userinit`, when all CPUs enter `scheduler`. -/
def Sys.init (m n : Nat) (initproc : Fin n) : Sys m n where
  cpu := fun _ => ⟨none, none, 0⟩
  proc := fun p =>
    if p = initproc then ⟨.runnable, .null, false, 0, 1, none⟩
    else ⟨.unused, .null, false, 0, 0, none⟩
  locks := []
  stack
    | .scheduler _ => [.scheduler (.acquire 0)]
    | .proc p => if p = initproc then [.forkret p] else []
  nextpid := 2
  initproc := initproc
  panic := none

end Step

end Xv6
