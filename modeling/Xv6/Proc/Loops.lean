import Xv6.Proc.Reaping

/-!
# Killable loops

`pipewrite`, `piperead`, `consoleread` and `sys_sleep` wait in a loop, as `wait`
does: they hold a lock, test `killed()`, and call `sleep` if the process is not
killed.  `killed` and `sleep` are the functions of `Xv6.Proc.Threads`; this layer
has the loops around them.  What the loops wait for is left open: each time round,
the loop goes on or ends.

`seen` is the result of `killed()` that a process has in its hands, and `marked`
says that a `kill` has returned 0 for the process, since the slot was last freed.
-/

namespace Xv6

/-! ## The loops -/

/-- The loops outside `wait`.  A pipe is given by its number. -/
inductive Loop where
  | pipewrite (pi : Nat)
  | piperead (pi : Nat)
  | consoleread
  | sysSleep
deriving DecidableEq

/-- `&pi->lock`, `&cons.lock` and `&tickslock`. -/
def Loop.lock : Loop → Nat
  | .consoleread => 0
  | .sysSleep => 1
  | .pipewrite pi | .piperead pi => pi + 2

/-- `&pi->nwrite`, `&pi->nread`, `&cons.r` and `&ticks`. -/
def Loop.chan {n : Nat} : Loop → Chan n
  | .consoleread => .other 0
  | .sysSleep => .other 1
  | .piperead pi => .other (2 * pi + 2)
  | .pipewrite pi => .other (2 * pi + 3)

/-- Where a process is in a loop. -/
inductive LoopRole where
  /-- Outside. -/
  | idle
  /-- At the condition of the loop. -/
  | head (l : Loop)
  /-- In `killed()`, or back from it. -/
  | test (l : Loop)
  /-- `pipewrite` in `wakeup(&pi->nread)`, on its way to `sleep`, or back from it. -/
  | wake (pi : Nat)
  /-- In `sleep`, or back from it. -/
  | sleep (l : Loop)
  /-- After the loop, in `wakeup` of the other end of the pipe, or back from it. -/
  | done (l : Loop)
deriving DecidableEq

structure Loops (m n : Nat) where
  sys : Sys m n
  role : Fin n → LoopRole
  seen : Fin n → Option Bool
  marked : Fin n → Bool

/-- The steps of a loop. -/
inductive LoopStep where
  | killed
  | copy
  | wakeup
  | sleep
  | again
  | finish
  | leave

/-- What the loops and the rest of the system do. -/
inductive LoopAct (m n : Nat) where
  | sys (a : SchedAct m n)
  /-- `acquire` of the lock of a loop. -/
  | enter (c : Fin m) (p : Fin n) (l : Loop)
  | loop (c : Fin m) (p : Fin n) (x : LoopStep)

section Steps

variable {m n : Nat}

/-- The code of a loop: what the CPU does, if anything, and where the process is
then.  `seen` is the result of `killed()`. -/
def LoopRole.move (c : Fin m) (seen : Option Bool) :
    LoopRole → LoopStep → Option (Option (SchedAct m n) × LoopRole)
  | .head l, .killed => some (some (.call c .killed), .test l)
  | .head (.piperead pi), .finish =>
      some (some (.call c (.wakeup (Loop.pipewrite pi).chan)), .done (.piperead pi))
  | .head (.pipewrite pi), .finish =>
      some (some (.call c (.wakeup (Loop.piperead pi).chan)), .done (.pipewrite pi))
  -- the reader has gone
  | .head (.pipewrite pi), .leave => some (some (.release c (Loop.pipewrite pi).lock), .idle)
  | .head .consoleread, .leave => some (some (.release c Loop.consoleread.lock), .idle)
  | .head .sysSleep, .leave => some (some (.release c Loop.sysSleep.lock), .idle)
  | .test l, .leave => if seen = some true then some (some (.release c l.lock), .idle) else none
  -- the pipe is not full
  | .test (.pipewrite pi), .copy =>
      if seen = some false then some (none, .head (.pipewrite pi)) else none
  | .test (.pipewrite pi), .wakeup =>
      if seen = some false then some (some (.call c (.wakeup (Loop.piperead pi).chan)), .wake pi)
      else none
  | .test (.pipewrite _), .sleep => none
  | .test l, .sleep =>
      if seen = some false then some (some (.call c (.sleep l.chan l.lock)), .sleep l) else none
  | .wake pi, .sleep =>
      some (some (.call c (.sleep (Loop.pipewrite pi).chan (Loop.pipewrite pi).lock)),
        .sleep (.pipewrite pi))
  | .sleep l, .again => some (none, .head l)
  | .done l, .leave => some (some (.release c l.lock), .idle)
  | _, _ => none

namespace Loops

/-- The process on the CPU is between calls. -/
def Turn (s : Loops m n) (c : Fin m) (p : Fin n) : Prop :=
  s.sys.panic = none ∧ (s.sys.cpu c).cur = some p ∧ s.sys.stack (.proc p) = []

instance (s : Loops m n) (c : Fin m) (p : Fin n) : Decidable (s.Turn c p) :=
  inferInstanceAs (Decidable (_ ∧ _ ∧ _))

/-- A process in a loop does nothing else. -/
def Allows (s : Loops m n) : SchedAct m n → Prop
  | .run _ _ | .timer _ | .intr _ _ => True
  | .call c _ | .acquire c _ | .release c _ => ∃ p, (s.sys.cpu c).cur = some p ∧ s.role p = .idle

instance (s : Loops m n) : (a : SchedAct m n) → Decidable (s.Allows a)
  | .run _ _ | .timer _ | .intr _ _ => .isTrue trivial
  | .call c _ | .acquire c _ | .release c _ =>
      inferInstanceAs (Decidable (∃ p, (s.sys.cpu c).cur = some p ∧ s.role p = .idle))

/-- What `killed` has loaded after an instruction. -/
def seenAfter (s : Loops m n) : SchedAct m n → Fin n → Option Bool
  | .run c _ =>
      match s.sys.stack (s.sys.thread c), (s.sys.cpu c).cur with
      | .killed q .store :: _, some p => Function.update s.seen p (some (s.sys.proc q).killed)
      | _, _ => s.seen
  | _ => s.seen

/-- Whether a `kill` has returned 0 after an instruction. -/
def markedAfter (s : Loops m n) : SchedAct m n → Fin n → Bool
  | .run c _ =>
      match s.sys.stack (s.sys.thread c) with
      | .kill _ (.release p true) :: _ => Function.update s.marked p true
      | .wait _ (.freeFields p) :: _ | .fork _ (.freeFields p) :: _ =>
          Function.update s.marked p false
      | _ => s.marked
  | _ => s.marked

/-- The process moves to another place in its loop. -/
def moveTo (s : Loops m n) (p : Fin n) (r : LoopRole) (sys : Sys m n) : Loops m n :=
  { s with sys := sys, role := Function.update s.role p r, seen := Function.update s.seen p none }

end Loops

/-- The next state, or `none` if the step is not possible. -/
def loopStep (s : Loops m n) : LoopAct m n → Option (Loops m n)
  | .sys a =>
      if s.Allows a then (schedStep s.sys a).map fun sys =>
        { sys := sys, role := s.role, seen := s.seenAfter a, marked := s.markedAfter a }
      else none
  | .enter c p l =>
      if s.Turn c p ∧ s.role p = .idle then
        (schedStep s.sys (.acquire c l.lock)).map (s.moveTo p (.head l))
      else none
  | .loop c p x =>
      if s.Turn c p then
        match (s.role p).move c (s.seen p) x with
        | none => none
        | some (none, r) => some (s.moveTo p r s.sys)
        | some (some a, r) => (schedStep s.sys a).map (s.moveTo p r)
      else none

def Loops.init (m n : Nat) (initproc : Fin n) : Loops m n :=
  ⟨Sys.init m n initproc, fun _ => .idle, fun _ => none, fun _ => false⟩

/-! ## Sleeping in a loop -/

def Frame.isWait : Frame n → Bool
  | .wait _ _ => true
  | _ => false

/-- `wait` has seen that the process is not killed and has not called `sleep` yet. -/
def Frame.decided : Frame n → Bool
  | .wait _ (.killedRelease false) | .wait _ .sleep => true
  | _ => false

/-- `sleep` has not acquired `p->lock` yet. -/
def Frame.falls : Frame n → Bool
  | .sleep _ _ _ .acquire => true
  | _ => false

/-- `sleep` has `p->lock` and the process is not `SLEEPING` yet. -/
def Frame.sinks : Frame n → Bool
  | .sleep _ _ _ .releaseLk | .sleep _ _ _ .setChan | .sleep _ _ _ .setState => true
  | _ => false

namespace Loops

/-- The process is in `wait`, or in the `sleep` of another loop. -/
def inLoop (s : Loops m n) (p : Fin n) : Bool :=
  (s.sys.stack (.proc p)).any Frame.isWait ||
    match s.role p with
    | .sleep _ => true
    | _ => false

/-- The process has loaded `p->killed` as 0 in `killed()`, and the `sleep` that this
leads to has not acquired `p->lock` yet. -/
def window (s : Loops m n) (p : Fin n) : Bool :=
  (s.sys.stack (.proc p)).any Frame.decided ||
    (s.inLoop p && (s.sys.stack (.proc p)).any Frame.falls) ||
    match s.role p with
    | .test _ => s.seen p == some false
    | .wake _ => true
    | _ => false

/-- `kill` does not set `p->killed` in the window of the process. -/
def Spares (s : Loops m n) : LoopAct m n → Prop
  | .sys (.run c _) =>
      match s.sys.stack (s.sys.thread c) with
      | .kill pid (.test p) :: _ => (s.sys.proc p).pid = pid → s.window p = false
      | _ => True
  | _ => True

instance (s : Loops m n) : (a : LoopAct m n) → Decidable (s.Spares a)
  | .sys (.run c _) =>
      match h : s.sys.stack (s.sys.thread c) with
      | .kill pid (.test p) :: _ =>
          decidable_of_iff ((s.sys.proc p).pid = pid → s.window p = false) (by simp only [Spares, h])
      | [] => .isTrue (by simp [Spares, h])
      | .scheduler _ :: _ | .forkret _ :: _ | .yield _ _ :: _ | .sleep _ _ _ _ :: _
      | .wakeup _ _ :: _ | .setkilled _ _ :: _ | .killed _ _ :: _ | .exit _ _ _ :: _
      | .wait _ _ :: _ | .fork _ _ :: _ | .kill _ (.acquire _) :: _ | .kill _ (.setState _) :: _
      | .kill _ (.release _ _) :: _ => .isTrue (by simp [Spares, h])
  | .sys (.call _ _) | .sys (.acquire _ _) | .sys (.release _ _) | .sys (.timer _)
  | .sys (.intr _ _) | .enter _ _ _ | .loop _ _ _ => .isTrue trivial

/-- `SLEEPING` in a loop. -/
def SleepsInLoop (s : Loops m n) (p : Fin n) : Prop :=
  (s.sys.proc p).state = .sleeping ∧ s.inLoop p = true

instance (s : Loops m n) (p : Fin n) : Decidable (s.SleepsInLoop p) :=
  inferInstanceAs (Decidable (_ ∧ _))

end Loops

end Steps

end Xv6
