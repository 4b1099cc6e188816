import Xv6.Proc.Threads

/-!
# Sleep-locks

`kernel/sleeplock.c` with the `sleep`, `wakeup` and `kill` that it rests on, for any number of
sleep-locks and of processes.  The fields of a sleep-lock are protected by its spin lock
`lk->lk`, and the stores under it are steps of their own.  What a function does under the lock
of a process is one step, except in `sleep`, which gives up `lk->lk` while it has `p->lock`.
Any process may be killed or woken between two steps, and also lose its CPU while it has no
spin lock.

Between the calls a process may sleep on other channels.
-/

namespace Xv6.Sleeplock

/-- A wait channel: a sleep-lock, or another address. -/
inductive Chan (L : Type) where
  | lock (l : L)
  | other (a : Nat)
deriving DecidableEq

/-- `struct sleeplock`, with the holder of the spin lock. -/
structure Lock (n : Nat) where
  locked : Bool
  pid : Int
  lk : Option (Fin n)

def initsleeplock (n : Nat) : Lock n where
  locked := false
  pid := 0
  lk := none

/-- Where a process is in `acquiresleep`. -/
inductive AcquirePc where
  /-- Before `acquire(&lk->lk)`, also at the end of `sleep`. -/
  | acquire
  | test
  /-- In `sleep`, before `acquire(&p->lock)`. -/
  | lockProc
  | unlock
  /-- Before the stores to `p->chan` and `p->state`, with `p->lock`. -/
  | suspend
  | sched
  | setLocked
  | setPid
  | release
deriving DecidableEq

/-- Where a process is in `releasesleep`. -/
inductive ReleasePc (n : Nat) where
  | acquire
  | clearLocked
  | clearPid
  /-- In `wakeup`, with the processes that the loop has not come to. -/
  | wake (rest : List (Fin n))
  | release
deriving DecidableEq

/-- Where a process is in `holdingsleep`. -/
inductive HoldingPc where
  | acquire
  | read
  /-- Before `release(&lk->lk)`, with the value of `r`. -/
  | release (r : Bool)
deriving DecidableEq

inductive Pc (n : Nat) (L : Type) where
  /-- Outside of the calls. -/
  | idle
  /-- In a call of `sleep` on another channel. -/
  | asleep
  | acquiresleep (l : L) (pc : AcquirePc)
  | releasesleep (l : L) (pc : ReleasePc n)
  | holdingsleep (l : L) (pc : HoldingPc)
deriving DecidableEq

/-- A process.  `lock` says that it has its own `p->lock`, and `held l` that it is between
`acquiresleep` and `releasesleep` of `l`: after the section in which it took the lock, and
before the section in which it gives it up. -/
structure Proc (n : Nat) (L : Type) where
  pid : Int
  killed : Bool
  state : ProcState
  chan : Option (Chan L)
  lock : Bool
  pc : Pc n L
  held : L → Bool

structure Sys (n : Nat) (L : Type) where
  lock : L → Lock n
  proc : Fin n → Proc n L

section

variable {n : Nat} {L : Type} [DecidableEq L]

def Sys.setLock (s : Sys n L) (l : L) (k : Lock n) : Sys n L :=
  { s with lock := Function.update s.lock l k }

def Sys.setProc (s : Sys n L) (p : Fin n) (q : Proc n L) : Sys n L :=
  { s with proc := Function.update s.proc p q }

def Sys.goto (s : Sys n L) (p : Fin n) (pc : Pc n L) : Sys n L :=
  s.setProc p { s.proc p with pc := pc }

/-- The section of `wakeup(chan)` under the lock of a process. -/
def Proc.wakeup (chan : Chan L) (q : Proc n L) : Proc n L :=
  if q.state = .sleeping ∧ q.chan = some chan then { q with state := .runnable } else q

/-- The section of `kill(pid)` under the lock of a process. -/
def Proc.kill (pid : Int) (q : Proc n L) : Proc n L :=
  if q.pid = pid then
    { q with killed := true, state := if q.state = .sleeping then .runnable else q.state }
  else
    q

/-- The scheduler lets a process run, and the process gets on up to its next release of
`p->lock`: in `sleep` it clears `p->chan`. -/
def Proc.resume (q : Proc n L) : Proc n L :=
  match q.pc with
  | .asleep => { q with state := .running, chan := none, pc := .idle }
  | .acquiresleep l .sched =>
      { q with state := .running, chan := none, pc := .acquiresleep l .acquire }
  | _ => { q with state := .running }

/-- `lk->locked && (lk->pid == myproc()->pid)`. -/
def Lock.holding (k : Lock n) (pid : Int) : Bool := k.locked && k.pid == pid

/-- The next instruction of `acquiresleep(l)`.  `none`: it waits for a spin lock, or the process
is not on a CPU. -/
def acquiresleep (s : Sys n L) (p : Fin n) (l : L) : AcquirePc → Option (Sys n L)
  | .acquire =>
      if (s.lock l).lk = none then
        some ((s.setLock l { s.lock l with lk := some p }).goto p (.acquiresleep l .test))
      else
        none
  | .test => some (s.goto p (.acquiresleep l (if (s.lock l).locked then .lockProc else .setLocked)))
  | .lockProc =>
      if (s.proc p).lock = false then
        some (s.setProc p { s.proc p with lock := true, pc := .acquiresleep l .unlock })
      else
        none
  | .unlock => some ((s.setLock l { s.lock l with lk := none }).goto p (.acquiresleep l .suspend))
  | .suspend =>
      some (s.setProc p
        { s.proc p with
          chan := some (.lock l), state := .sleeping, lock := false
          pc := .acquiresleep l .sched })
  | .sched => none
  | .setLocked =>
      some ((s.setLock l { s.lock l with locked := true }).goto p (.acquiresleep l .setPid))
  | .setPid =>
      some ((s.setLock l { s.lock l with pid := (s.proc p).pid }).goto p
        (.acquiresleep l .release))
  | .release =>
      some ((s.setLock l { s.lock l with lk := none }).setProc p
        { s.proc p with pc := .idle, held := Function.update (s.proc p).held l true })

/-- The next instruction of `releasesleep(l)`. -/
def releasesleep (s : Sys n L) (p : Fin n) (l : L) : ReleasePc n → Option (Sys n L)
  | .acquire =>
      if (s.lock l).lk = none then
        some ((s.setLock l { s.lock l with lk := some p }).setProc p
          { s.proc p with
            pc := .releasesleep l .clearLocked
            held := Function.update (s.proc p).held l false })
      else
        none
  | .clearLocked =>
      some ((s.setLock l { s.lock l with locked := false }).goto p (.releasesleep l .clearPid))
  | .clearPid =>
      some ((s.setLock l { s.lock l with pid := 0 }).goto p
        (.releasesleep l (.wake (List.finRange n))))
  | .wake [] => some (s.goto p (.releasesleep l .release))
  | .wake (q :: rest) =>
      if q = p then
        some (s.goto p (.releasesleep l (.wake rest)))
      else if (s.proc q).lock = false then
        some ((s.setProc q ((s.proc q).wakeup (.lock l))).goto p (.releasesleep l (.wake rest)))
      else
        none
  | .release => some ((s.setLock l { s.lock l with lk := none }).goto p .idle)

/-- The next instruction of `holdingsleep(l)`. -/
def holdingsleep (s : Sys n L) (p : Fin n) (l : L) : HoldingPc → Option (Sys n L)
  | .acquire =>
      if (s.lock l).lk = none then
        some ((s.setLock l { s.lock l with lk := some p }).goto p (.holdingsleep l .read))
      else
        none
  | .read => some (s.goto p (.holdingsleep l (.release ((s.lock l).holding (s.proc p).pid))))
  | .release _ => some ((s.setLock l { s.lock l with lk := none }).goto p .idle)

/-- The spin lock `lk->lk` that a process has. -/
def Pc.spin : Pc n L → Option L
  | .idle | .asleep => none
  | .acquiresleep l pc =>
      match pc with
      | .acquire | .suspend | .sched => none
      | .test | .lockProc | .unlock | .setLocked | .setPid | .release => some l
  | .releasesleep l pc =>
      match pc with
      | .acquire => none
      | .clearLocked | .clearPid | .wake _ | .release => some l
  | .holdingsleep l pc =>
      match pc with
      | .acquire => none
      | .read | .release _ => some l

inductive Act (n : Nat) (L : Type) where
  /-- The next instruction of a process. -/
  | run (p : Fin n)
  | callAcquiresleep (p : Fin n) (l : L)
  | callReleasesleep (p : Fin n) (l : L)
  | callHoldingsleep (p : Fin n) (l : L)
  /-- A process sleeps on another channel. -/
  | sleep (p : Fin n) (a : Nat)
  | yield (p : Fin n)
  | schedule (p : Fin n)
  /-- A process or an interrupt calls `wakeup(chan)`, and its loop comes to `q`. -/
  | wakeup (chan : Chan L) (q : Fin n)
  /-- A process calls `kill(pid)`, and its loop comes to `q`. -/
  | kill (pid : Int) (q : Fin n)

/-- A process executes its next instruction. -/
def run (s : Sys n L) (p : Fin n) : Option (Sys n L) :=
  match (s.proc p).pc with
  | .idle | .asleep => none
  | .acquiresleep l pc => acquiresleep s p l pc
  | .releasesleep l pc => releasesleep s p l pc
  | .holdingsleep l pc => holdingsleep s p l pc

/-- One step, or `none` if it cannot be taken.  A process releases only the sleep-locks that it
has. -/
def step (s : Sys n L) : Act n L → Option (Sys n L)
  | .run p => if (s.proc p).state = .running then run s p else none
  | .callAcquiresleep p l =>
      if (s.proc p).state = .running ∧ (s.proc p).pc = .idle then
        some (s.goto p (.acquiresleep l .acquire))
      else
        none
  | .callReleasesleep p l =>
      if (s.proc p).state = .running ∧ (s.proc p).pc = .idle ∧ (s.proc p).held l = true then
        some (s.goto p (.releasesleep l .acquire))
      else
        none
  | .callHoldingsleep p l =>
      if (s.proc p).state = .running ∧ (s.proc p).pc = .idle then
        some (s.goto p (.holdingsleep l .acquire))
      else
        none
  | .sleep p a =>
      if (s.proc p).state = .running ∧ (s.proc p).pc = .idle then
        some (s.setProc p
          { s.proc p with state := .sleeping, chan := some (.other a), pc := .asleep })
      else
        none
  | .yield p =>
      if (s.proc p).state = .running ∧ (s.proc p).pc.spin = none ∧ (s.proc p).lock = false then
        some (s.setProc p { s.proc p with state := .runnable })
      else
        none
  | .schedule p =>
      if (s.proc p).state = .runnable ∧ (s.proc p).lock = false then
        some (s.setProc p (s.proc p).resume)
      else
        none
  | .wakeup chan q =>
      if (s.proc q).lock = false then some (s.setProc q ((s.proc q).wakeup chan)) else none
  | .kill pid q =>
      if (s.proc q).lock = false then some (s.setProc q ((s.proc q).kill pid)) else none

/-- The processes with their pids before the first call. -/
def start (pids : Fin n → Int) : Sys n L where
  lock _ := initsleeplock n
  proc p :=
    { pid := pids p, killed := false, state := .runnable, chan := none, lock := false
      pc := .idle, held := fun _ => false }

end

end Xv6.Sleeplock
