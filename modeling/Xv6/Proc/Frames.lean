import Xv6.Proc.Threads

/-!
# What a frame says

The point that a function has reached says something about the rest of the
state.  A frame may hold the lock of a process (`holds`).  It may know the state
of a process whose lock it holds (`sees`), or be making a process that no one
else can reach yet (`child`).  While its own process is on a CPU it determines
the state of the process (`own`).  The point of `scheduler` determines which
process the CPU claims.  A thread that is switched out is at a point where it
holds the lock of its process (`Resumes`).
-/

namespace Xv6

variable {m n : Nat} {f : Frame n} {p : Fin n}

/-! ## What a frame says -/

/-- The process whose lock the scheduler holds at a point. -/
def SchedulerPc.holds : SchedulerPc n → Option (Fin n)
  | .acquire _ => none
  | .test p | .setProc p | .swtch p | .clearProc p | .release p => some p

/-- The process that the CPU runs or is about to run. -/
def SchedulerPc.claim : SchedulerPc n → Option (Fin n)
  | .setProc p | .swtch p | .clearProc p => some p
  | .acquire _ | .test _ | .release _ => none

/-- The value of `c->proc` at a point of the scheduler. -/
def SchedulerPc.proc : SchedulerPc n → Option (Fin n)
  | .swtch p | .clearProc p => some p
  | .acquire _ | .test _ | .setProc _ | .release _ => none

/-- The process whose lock a frame holds. -/
def Frame.holds : Frame n → Option (Fin n)
  | .scheduler pc => pc.holds
  | .forkret p => some p
  | .yield p pc => match pc with
      | .acquire => none
      | .setState | .sched | .release => some p
  | .sleep p _ _ pc => match pc with
      | .acquire | .acquireLk => none
      | .releaseLk | .setChan | .setState | .sched | .clearChan | .release => some p
  | .wakeup _ pc => match pc with
      | .next _ => none
      | .test p | .release p => some p
  | .kill _ pc => match pc with
      | .acquire _ => none
      | .test p | .setState p | .release p _ => some p
  | .setkilled q pc | .killed q pc => match pc with
      | .acquire => none
      | .store | .release => some q
  | .exit p _ pc => match pc with
      | .acquireWait | .reparent _ | .wakeupParent | .acquire => none
      | .setXstate | .setState | .releaseWait | .sched | .zombie => some p
  | .wait p pc => match pc with
      | .acquireWait | .scan _ _ | .acquire _ | .killedAcquire | .sleep | .releaseWait => none
      | .test pp | .copyout pp | .freeFields pp | .freeState pp | .release pp
      | .releaseNext pp => some pp
      | .killedTest | .killedRelease _ => some p
  | .fork _ pc => match pc with
      | .acquire _ | .acquireWait _ | .setParent _ | .releaseWait _ | .reacquire _ => none
      | .test np | .releaseNext np | .pidAcquire np | .pidNext np | .pidRelease np _
      | .setPid np _ | .setUsed np | .alloc np | .setContext np | .copy np | .release np
      | .setRunnable np | .releaseLast np | .freeFields np | .freeState np => some np

/-- The state of the process that runs a frame. -/
def Frame.own : Frame n → ProcState
  | .yield _ .sched => .runnable
  | .sleep _ _ _ .sched => .sleeping
  | .exit _ _ .releaseWait | .exit _ _ .sched => .zombie
  | _ => .running

/-- The new process of a `fork` that has not made it runnable yet. -/
def Frame.child : Frame n → Option (Fin n)
  | .fork _ pc => match pc with
      | .alloc np | .setContext np | .copy np | .release np | .acquireWait np | .setParent np
      | .releaseWait np | .reacquire np | .setRunnable np | .freeFields np | .freeState np =>
          some np
      | .acquire _ | .test _ | .releaseNext _ | .pidAcquire _ | .pidNext _ | .pidRelease _ _
      | .setPid _ _ | .setUsed _ | .releaseLast _ => none
  | _ => none

/-- The context of the new process is set up. -/
def Frame.Ready : Frame n → Prop
  | .fork _ pc => match pc with
      | .copy _ | .release _ | .acquireWait _ | .setParent _ | .releaseWait _ | .reacquire _
      | .setRunnable _ => True
      | _ => False
  | _ => False

/-- The state of a process that a frame has found under its lock. -/
def Frame.sees : Frame n → Option (Fin n × ProcState)
  | .wait _ (.copyout pp) | .wait _ (.freeFields pp) | .wait _ (.freeState pp) => some (pp, .zombie)
  | .fork _ (.pidAcquire np) | .fork _ (.pidNext np) | .fork _ (.pidRelease np _)
  | .fork _ (.setPid np _) | .fork _ (.setUsed np) => some (np, .unused)
  | _ => none

/-- The thread of a process. -/
def Thread.IsProc : Thread m n → Prop
  | .proc _ => True
  | .scheduler _ => False

/-- The thread of a scheduler. -/
def Thread.IsScheduler : Thread m n → Prop
  | .proc _ => False
  | .scheduler _ => True

/-- The threads that may run a frame.  `sleep` is never called with the lock of a
process. -/
def Frame.RunsOn : Frame n → Thread m n → Prop
  | .scheduler _, t => t.IsScheduler
  | .wakeup _ _, _ => True
  | .kill _ _, t | .setkilled _ _, t | .killed _ _, t => t.IsProc
  | .sleep p _ lk _, t => t = .proc p ∧ ∀ q, lk ≠ .proc q
  | .forkret p, t | .yield p _, t | .exit p _ _, t | .wait p _, t | .fork p _, t => t = .proc p

/-- The points a switched out process goes on from. -/
def Frame.Resumes (p : Fin n) : Frame n → Prop
  | .forkret q | .yield q .release | .sleep q _ _ .clearChan => q = p
  | _ => False

/-- What the innermost frame of a stack holds. -/
def topHolds : List (Frame n) → Option (Fin n)
  | [] => none
  | f :: _ => f.holds

/-- The state of a process with a stack, while it is on a CPU. -/
def topOwn : List (Frame n) → ProcState
  | [] => .running
  | f :: _ => f.own

/-- The stack of a scheduler thread: `scheduler`, and interrupts that came while
it held no lock. -/
inductive SchedStack : List (Frame n) → SchedulerPc n → Prop where
  | base (pc) : SchedStack [.scheduler pc] pc
  | intr (chan wpc) : SchedStack fs pc → pc.holds = none → SchedStack (.wakeup chan wpc :: fs) pc

theorem Frame.own_of_holds (h : f.holds = none) : f.own = .running := by
  cases f with
  | yield p pc => cases pc <;> first | rfl | cases h
  | sleep p chan lk pc => cases pc <;> first | rfl | cases h
  | exit p status pc => cases pc <;> first | rfl | cases h
  | _ => rfl

/-- A frame that leaves `RUNNING` behind holds the lock of its process. -/
theorem Frame.holds_of_own (hr : f.RunsOn (.proc p : Thread m n)) (h : f.own ≠ .running) :
    f.holds = some p := by
  cases f with
  | yield q pc =>
      cases hr
      cases pc <;> first | rfl | exact absurd rfl h
  | sleep q chan lk pc =>
      cases hr.1
      cases pc <;> first | rfl | exact absurd rfl h
  | exit q status pc =>
      cases hr
      cases pc <;> first | rfl | exact absurd rfl h
  | _ => exact absurd rfl h

theorem Frame.own_mem (f : Frame n) : f.own ≠ .unused ∧ f.own ≠ .used := by
  cases f with
  | yield p pc => cases pc <;> simp [Frame.own]
  | sleep p chan lk pc => cases pc <;> simp [Frame.own]
  | exit p status pc => cases pc <;> simp [Frame.own]
  | _ => simp [Frame.own]

theorem Frame.Resumes.holds (h : f.Resumes p) : f.holds = some p := by
  cases f with
  | forkret q => cases h; rfl
  | yield q pc => cases pc <;> cases h; rfl
  | sleep q chan lk pc => cases pc <;> cases h; rfl
  | _ => cases h

theorem Frame.Resumes.own (h : f.Resumes p) : f.own = .running := by
  cases f with
  | forkret q => rfl
  | yield q pc => cases pc <;> cases h; rfl
  | sleep q chan lk pc => cases pc <;> cases h; rfl
  | _ => cases h

theorem Frame.not_ready (h : f.child = none) : ¬ f.Ready := by
  cases f with
  | fork p pc => cases pc <;> first | exact id | cases h
  | _ => exact id

/-- A frame sees a process only under its lock. -/
theorem Frame.holds_of_sees {q : Fin n} {x : ProcState} (h : f.sees = some (q, x)) :
    f.holds = some q ∧ x ≠ .running ∧ x ≠ .used := by
  cases f with
  | wait p pc => cases pc <;> cases h <;> exact ⟨rfl, by simp⟩
  | fork p pc => cases pc <;> cases h <;> exact ⟨rfl, by simp⟩
  | _ => cases h

theorem Frame.sees_of_holds (h : f.holds = none) (q : Fin n) (x : ProcState) :
    f.sees ≠ some (q, x) := by
  intro hs
  rw [(Frame.holds_of_sees hs).1] at h
  cases h

end Xv6
