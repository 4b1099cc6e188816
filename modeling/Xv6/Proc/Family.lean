import Xv6.Proc.Wakeup

/-!
# Parents and children

`wait_lock` protects `p->parent`.  It also makes `exit` and `wait` of a parent
and its child exclude each other: `exit` has it from before it gives its children
away until it is a zombie, and `wait` has it from before it looks for a zombie
until it sleeps.  `Family` says for every process where it is in `exit`, `wait`
or `fork`, whether it has `wait_lock`, and what it knows by then.

The children of a process are changed, and become zombies, under `wait_lock`
only.  So what a process has found out under `wait_lock` remains true while it
has the lock, and a step of any other process keeps it (`Stage.mono`).
-/

namespace Xv6

variable {m n : Nat} {x : ProcState}

/-! ## Points with `wait_lock` -/

def ExitPc.locked : ExitPc → Bool
  | .acquireWait | .sched | .zombie => false
  | .reparent _ | .wakeupParent | .acquire | .setXstate | .setState | .releaseWait => true

def WaitPc.locked : WaitPc n → Bool
  | .acquireWait => false
  | _ => true

def ForkPc.locked : ForkPc n → Bool
  | .setParent _ | .releaseWait _ => true
  | _ => false

/-- A frame that is no part of `exit`, `wait` or `fork`. -/
def Frame.Apart : Frame n → Prop
  | .exit _ _ _ | .wait _ _ | .fork _ _ => False
  | .sleep _ _ lk _ => lk ≠ .wait
  | _ => True

/-- Whether the CPU has `wait_lock` after an instruction. -/
def Instr.waits (b : Bool) : Instr n → Bool
  | .acquire .wait _ => true
  | .release .wait _ => false
  | _ => b

/-! ## What a process knows -/

/-- The process is in `wait`. -/
def Sys.InWait (s : Sys m n) (p : Fin n) : Prop := ∃ pc, .wait p pc ∈ s.stack (.proc p)

/-- The process sleeps in `wait`, or is going to. -/
def Sys.Naps (s : Sys m n) (p : Fin n) : Prop := s.InWait p ∧ s.Dozes (.proc p) p

/-- The first `i` slots hold no children of the process. -/
def Sys.Swept (s : Sys m n) (p : Fin n) (i : Nat) : Prop :=
  ∀ q : Fin n, q < i → (s.proc q).parent ≠ some p

/-- The first `i` slots hold no zombie children of the process. -/
def Sys.Clean (s : Sys m n) (p : Fin n) (i : Nat) : Prop :=
  ∀ q : Fin n, q < i → (s.proc q).parent = some p → (s.proc q).state ≠ .zombie

/-- The parent of the process is not among the first `i` processes, or awake. -/
def Sys.Alerted (s : Sys m n) (p : Fin n) (i : Nat) : Prop :=
  ∀ r : Fin n, (s.proc p).parent = some r → r < i → ¬ s.Naps r

/-- What `exit` has done. -/
def Sys.ExitKnows (s : Sys m n) (p : Fin n) (status : Int) : ExitPc → Prop
  | .reparent i => s.Swept p i
  | .wakeupParent => s.Swept p n
  | .acquire | .setXstate => s.Swept p n ∧ s.Alerted p n
  | .setState => s.Swept p n ∧ s.Alerted p n ∧ (s.proc p).xstate = status
  | .acquireWait | .releaseWait | .sched | .zombie => True

/-- What `exit` has done while it wakes a process up. -/
def Sys.WakeKnows (s : Sys m n) (p : Fin n) (chan : Chan n) (wpc : WakeupPc n) : ExitPc → Prop
  | .reparent i => chan = .proc s.initproc ∧ s.Swept p i ∧
      (s.initproc < wpc.progress → ¬ s.Naps s.initproc)
  | .acquire => chan = (s.proc p).parent.elim .null .proc ∧ s.Swept p n ∧
      s.Alerted p wpc.progress
  | _ => False

/-- What `wait` has found. -/
def Sys.WaitKnows (s : Sys m n) (p : Fin n) : WaitPc n → Prop
  | .scan i _ => s.Clean p i
  | .acquire pp | .test pp => s.Clean p pp ∧ (s.proc pp).parent = some p
  | .releaseNext pp => s.Clean p (pp + 1)
  | .copyout pp | .freeFields pp => (s.proc pp).parent = some p
  | .freeState pp => (s.proc pp).parent = none
  | .killedAcquire | .killedTest | .killedRelease _ | .sleep => s.Clean p n
  | .acquireWait | .release _ | .releaseWait => True

/-- What `fork` knows about the parent of the new process. -/
def Sys.ForkKnows (s : Sys m n) : ForkPc n → Prop
  | .pidAcquire np | .pidNext np | .pidRelease np _ | .setPid np _ | .setUsed np | .alloc np
  | .setContext np | .copy np | .release np | .acquireWait np | .setParent np
  | .freeFields np | .freeState np => (s.proc np).parent = none
  | .releaseWait np | .reacquire np | .setRunnable np => (s.proc np).parent ≠ none
  | .acquire _ | .test _ | .releaseNext _ | .releaseLast _ => True

/-- Where a process is, and whether it has `wait_lock`. -/
inductive Kin (s : Sys m n) (p : Fin n) : List (Frame n) → Bool → Prop where
  | apart {st} : (∀ f ∈ st, f.Apart) → Kin s p st false
  | intr {f st} : f.Intr → Kin s p st false → Kin s p (f :: st) false
  | exit {status} (pc) : p ≠ s.initproc → s.ExitKnows p status pc →
      Kin s p [.exit p status pc] pc.locked
  | waking {status chan wpc pc} : p ≠ s.initproc → s.WakeKnows p chan wpc pc →
      Kin s p [.wakeup chan wpc, .exit p status pc] true
  | wait (pc) : s.WaitKnows p pc → Kin s p [.wait p pc] pc.locked
  | sleep (pc) : (pc.locked = true → s.Clean p n) →
      Kin s p [.sleep p (.proc p) .wait pc, .wait p (.scan 0 false)] pc.locked
  | fork (pc) : s.ForkKnows pc → Kin s p [.fork p pc] pc.locked

/-- The states of a process that has been made. -/
def ProcState.Born : ProcState → Prop
  | .runnable | .sleeping | .running | .zombie => True
  | .unused | .used => False

/-- `wait` is in the middle of `freeproc` for the process: the parent has been
cleared and the state has not. -/
def Sys.Freeing (s : Sys m n) (q : Fin n) : Prop := ∃ p, s.stack (.proc p) = [.wait p (.freeState q)]

/-- The invariant of parents and children. -/
structure Family (s : Sys m n) : Prop where
  base : SchedInv s
  chanSet : s.ChanSet
  kin : ∀ p, ∃ b, Kin s p (s.stack (.proc p)) b ∧ (b = true ↔ s.Holds .wait p)
  held : ∀ c, (.wait, c) ∈ s.locks → ∃ p, (s.cpu c).cur = some p
  initLive : (s.proc s.initproc).state.Live
  alive : ∀ q r, (s.proc q).parent = some r → (s.proc r).state.Live
  parent : ∀ q, q ≠ s.initproc → (s.proc q).state.Born → (s.proc q).parent ≠ none ∨ s.Freeing q
  unused : ∀ q, (s.proc q).state = .unused → (s.proc q).parent = none
  /-- A process with a zombie child sleeps in `wait` only while an `exit` is waking
  it up. -/
  awake : ∀ q r, (s.proc q).parent = some r → (s.proc q).state = .zombie → s.Naps r →
    ∃ p status wpc i, s.stack (.proc p) = [.wakeup (.proc r) wpc, .exit p status (.reparent i)]

/-! ## What a store does to a family -/

/-- What a store of the frame `f` does to the parent of `q`, to its being a zombie
and to what it leaves for `wait`. -/
inductive Writes (s : Sys m n) (f : Frame n) (q : Fin n) (y : Proc n) : Prop where
  /-- Nothing. -/
  | keep : y.state = (s.proc q).state → y.parent = (s.proc q).parent → y.pid = (s.proc q).pid →
      y.xstate = (s.proc q).xstate → Writes s f q y
  /-- The process is put to sleep, woken up or scheduled. -/
  | live : (s.proc q).state.Live → y.state.Live → y.parent = (s.proc q).parent →
      y.pid = (s.proc q).pid → y.xstate = (s.proc q).xstate → Writes s f q y
  /-- `fork` makes the process. -/
  | unborn (p pc) : f = .fork p pc → ¬ (s.proc q).state.Born → ¬ y.state.Born →
      (s.proc q).parent = none → y.parent = none →
      (y.state = .used → (s.proc q).state = .used ∨ f = .fork p (.setUsed q)) → Writes s f q y
  | setParent (p) : f = .fork p (.setParent q) → y = { s.proc q with parent := some p } →
      Writes s f q y
  | setRunnable (p) : f = .fork p (.setRunnable q) → y = { s.proc q with state := .runnable } →
      Writes s f q y
  | reparent (p status) : f = .exit p status (.reparent q) → (s.proc q).parent = some p →
      y = { s.proc q with parent := some s.initproc } → Writes s f q y
  | setXstate (status) : f = .exit q status .setXstate →
      y = { s.proc q with xstate := status } → Writes s f q y
  | exit (status) : f = .exit q status .setState → y = { s.proc q with state := .zombie } →
      Writes s f q y
  | freeFields (p) : f = .wait p (.freeFields q) → y = (s.proc q).free → Writes s f q y
  | freeState (p) : f = .wait p (.freeState q) → y = { s.proc q with state := .unused } →
      Writes s f q y

theorem ProcState.Live.born (h : x.Live) : x.Born := by cases x <;> trivial

theorem ProcState.Live.ne_zombie (h : x.Live) : x ≠ .zombie := by
  rintro rfl
  exact h

section Code

variable {s : Sys m n} {c : Fin m} {ok : Bool} {f : Frame n} {rest : List (Frame n)}
  {p q : Fin n} {u : Proc n → Proc n} {next : List (Frame n)}

theorem Family.fork_knows (h : Family s) {pc : ForkPc n}
    (hst : s.stack (s.thread c) = .fork p pc :: rest) : s.ForkKnows pc := by
  obtain ⟨b, hkin, -⟩ := h.kin p
  have hcur : (s.cpu c).cur = some p := h.base.cur_of_runsOn hst fun _ ht => ht
  rw [← stack_of_cur hcur, hst] at hkin
  cases hkin with
  | apart hap => exact (hap _ List.mem_cons_self).elim
  | intr hf => exact hf.elim
  | fork _ hk => exact hk

theorem Family.writes (h : Family s) (hst : s.stack (s.thread c) = f :: rest)
    (ha : Assigns s f q u) : Writes s f q (u (s.proc q)) := by
  have hsees := h.base.sees_of hst
  have hchild := fun q => h.base.frames.used (s.thread c) f q (mem_top hst)
  cases ha with
  | run hs => exact .live (by rw [hs]; trivial) trivial rfl rfl rfl
  | yield =>
      have hcur := h.base.cur_of_runsOn hst fun _ ht => ht
      have hs := h.base.state_of_cur hcur (by rw [← stack_of_cur hcur]; exact hst)
      exact .live (by rw [hs]; trivial) trivial rfl rfl rfl
  | sleep =>
      have hs := (h.base.running_in_sleep hst (by simp)).2
      exact .live (by rw [hs]; trivial) trivial rfl rfl rfl
  | wakeup hs => exact .live (by rw [hs]; trivial) trivial rfl rfl rfl
  | killWakeup hs => exact .live (by rw [hs]; trivial) trivial rfl rfl rfl
  | reparent hpar => exact .reparent _ _ rfl hpar rfl
  | setXstate => exact .setXstate _ rfl rfl
  | exit => exact .exit _ rfl rfl
  | waitFree => exact .freeFields _ rfl rfl
  | waitUnused => exact .freeState _ rfl rfl
  | setPid =>
      have hu : (s.proc q).state = .unused := hsees q .unused rfl
      have hk := h.fork_knows hst
      exact .unborn _ _ rfl (by rw [hu]; exact id) (by rw [hu]; exact id) hk hk .inl
  | setUsed =>
      have hu : (s.proc q).state = .unused := hsees q .unused rfl
      have hk := h.fork_knows hst
      exact .unborn _ _ rfl (by rw [hu]; exact id) id hk hk fun _ => .inr rfl
  | setParent => exact .setParent _ rfl rfl
  | setRunnable => exact .setRunnable _ rfl rfl
  | forkFree =>
      have hu : (s.proc q).state = .used := (hchild q rfl).1
      exact .unborn _ _ rfl (by rw [hu]; exact id) (by rw [Proc.free, hu]; exact id)
        (h.fork_knows hst) rfl .inl
  | forkUnused =>
      have hu : (s.proc q).state = .used := (hchild q rfl).1
      have hk := h.fork_knows hst
      exact .unborn _ _ rfl (by rw [hu]; exact id) id hk hk fun h => by cases h
  | _ => exact .keep rfl rfl rfl rfl

theorem Family.writes_step (h : Family s) {s' : Sys m n} (hst : s.stack (s.thread c) = f :: rest)
    (he : Effects s s' c (s.thread c) rest (code s c ok f)) (q : Fin n) :
    Writes s f q (s'.proc q) := by
  rcases he.stores (h.base.code_does hst ok) q with hkeep | ⟨u, hu, ha, -⟩
  · rw [hkeep]
    exact .keep rfl rfl rfl rfl
  · rw [hu]
    exact h.writes hst ha

end Code

end Xv6
