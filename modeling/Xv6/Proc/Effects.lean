import Xv6.Proc.OneCpu

/-!
# What an instruction changes

`exec` as a list of effects: on the stacks, on the process table, on the stack
that a CPU is on and on the locks.  From it, what the code can do to a process:
which frames come after a frame (`Leads`), who can put a process to sleep on a
channel, who can end it, and which frames take locks other than those of
processes.
-/

namespace Xv6

variable {m n : Nat}

/-! ## Effects -/

/-- The frames after an instruction. -/
def Instr.next : Instr n → List (Frame n)
  | .acquire _ next | .release _ next | .store _ _ next | .setNextpid _ next | .setProc _ next
  | .setContext _ next | .swtch _ next | .sched next | .goto next => next
  | .panic _ => []

/-- The kernel stack that the CPU is on after an instruction. -/
def Instr.cur : Instr n → Option (Fin n) → Option (Fin n)
  | .swtch p _, _ => some p
  | .sched _, _ => none
  | _, x => x

/-- The locks after an instruction of CPU `c`. -/
def Instr.locks (c : Fin m) (locks : Spin.Held (Lock n) (Fin m)) :
    Instr n → Spin.Held (Lock n) (Fin m)
  | .acquire lk _ => (lk, c) :: locks
  | .release lk _ => locks.erase (lk, c)
  | _ => locks

/-- The effects of an instruction that does not stop the system. -/
structure Effects (s s' : Sys m n) (c : Fin m) (t : Thread m n) (rest : List (Frame n))
    (i : Instr n) : Prop where
  self : (∀ q next, i = .setContext q next → t ≠ .proc q) → s'.stack t = i.next ++ rest
  other : ∀ t', t' ≠ t → s'.stack t' = s.stack t' ∨
    ∃ q next, i = .setContext q next ∧ t' = .proc q ∧ s'.stack t' = [.forkret q]
  store : ∀ q u next, i = .store q u next → s'.proc q = u (s.proc q)
  proc : ∀ q, (∀ u next, i ≠ .store q u next) → s'.proc q = s.proc q
  cur : (s'.cpu c).cur = i.cur (s.cpu c).cur
  curs : ∀ c', c' ≠ c → (s'.cpu c').cur = (s.cpu c').cur
  locks : s'.locks = i.locks c s.locks
  /-- A lock is released by its holder. -/
  mem : ∀ lk next, i = .release lk next → (lk, c) ∈ s.locks

section Exec

variable {s s' : Sys m n} {c : Fin m} {t : Thread m n} {rest next : List (Frame n)} {i : Instr n}

theorem Effects.of_setStack
    (hstack : s'.stack = (s.setStack t (i.next ++ rest)).stack)
    (hi : ∀ q u next, i ≠ .store q u next) (hproc : s'.proc = s.proc)
    (hcur : ∀ c', (s'.cpu c').cur = (s.cpu c').cur) (hic : i.cur = id)
    (hlocks : s'.locks = i.locks c s.locks)
    (hmem : ∀ lk next, i = .release lk next → (lk, c) ∈ s.locks) : Effects s s' c t rest i := by
  refine ⟨fun _ => ?_, fun t' ht' => .inl ?_, fun q u next he => absurd he (hi q u next),
    fun q _ => by rw [hproc], ?_, fun c' _ => hcur c', hlocks, hmem⟩
  · rw [hstack, Sys.stack_setStack_self]
  · rw [hstack, Sys.stack_setStack_of_ne _ ht']
  · rw [hcur, hic]
    rfl

theorem cur_setCpu_noff (s : Sys m n) (c c' : Fin m) (v : Cpu n → Cpu n)
    (hv : ∀ r, (v r).cur = r.cur) : ((s.setCpu c v).cpu c').cur = (s.cpu c').cur := by
  by_cases hc : c' = c
  · rw [hc, Sys.cpu_setCpu_self, hv]
  · rw [Sys.cpu_setCpu_of_ne _ hc]

theorem exec_store {q : Fin n} {u : Proc n → Proc n}
    (h : s.exec c t rest (.store q u next) = some s') : Effects s s' c t rest (.store q u next) := by
  cases h
  refine ⟨fun _ => Sys.stack_setStack_self .., fun t' ht' => .inl ?_, fun r v nx hi => ?_,
    fun r hr => ?_, rfl, fun _ _ => rfl, rfl, by simp⟩
  · exact Sys.stack_setStack_of_ne s ht' _
  · cases hi
    exact Sys.proc_setPcb_self ..
  · refine Sys.proc_setPcb_of_ne _ (fun he => ?_) u
    rw [he] at hr
    exact hr u next rfl

theorem exec_goto (h : s.exec c t rest (.goto next) = some s') :
    Effects s s' c t rest (.goto next) := by
  cases h
  exact .of_setStack rfl (by simp) rfl (fun _ => rfl) rfl rfl (by simp)

theorem exec_effects (h : s.exec c t rest i = some s') :
    (∃ e, s' = s.halt e) ∨ Effects s s' c t rest i := by
  cases i with
  | acquire lk next =>
      simp only [Sys.exec, Sys.acquire] at h
      split at h
      · cases h
        exact .inl ⟨_, rfl⟩
      · split at h
        · cases h
          exact .inr (.of_setStack rfl (by simp) rfl
            (fun c' => cur_setCpu_noff s c c' (fun r => { r with noff := r.noff + 1 }) fun _ => rfl)
            rfl rfl (by simp))
        · cases h
  | release lk next =>
      simp only [Sys.exec, Sys.release] at h
      split at h
      · rename_i hmem
        cases h
        refine .inr (.of_setStack rfl (by simp) rfl
          (fun c' => cur_setCpu_noff s c c' (fun r => { r with noff := r.noff - 1 }) fun _ => rfl)
          rfl rfl ?_)
        intro lk' next' he
        cases he
        exact hmem
      · cases h
        exact .inl ⟨_, rfl⟩
  | store q u next => exact .inr (exec_store h)
  | setNextpid pid next =>
      cases h
      exact .inr (.of_setStack rfl (by simp) rfl (fun _ => rfl) rfl rfl (by simp))
  | setProc x next =>
      cases h
      exact .inr (.of_setStack rfl (by simp) rfl
        (fun c' => cur_setCpu_noff _ c c' _ fun _ => rfl) rfl rfl (by simp))
  | setContext q next =>
      cases h
      refine .inr ⟨fun ht => ?_, fun t' ht' => ?_, by simp, fun _ _ => rfl, rfl, fun _ _ => rfl,
        rfl, by simp⟩
      · rw [Sys.stack_setStack_of_ne _ (ht q next rfl), Sys.stack_setStack_self]
        rfl
      · by_cases hq : t' = .proc q
        · subst hq
          exact .inr ⟨q, next, rfl, rfl, Sys.stack_setStack_self ..⟩
        · exact .inl ((Sys.stack_setStack_of_ne _ hq _).trans (Sys.stack_setStack_of_ne s ht' _))
  | swtch p next =>
      cases h
      refine .inr ⟨fun _ => Sys.stack_setStack_self .., fun t' ht' => .inl ?_, by simp,
        fun _ _ => rfl, ?_, fun c' hc => ?_, rfl, by simp⟩
      · exact Sys.stack_setStack_of_ne s ht' _
      · rw [Sys.cpu_setCpu_self]
        rfl
      · rw [Sys.cpu_setCpu_of_ne _ hc]
        rfl
  | sched next =>
      simp only [Sys.exec] at h
      split at h
      · cases h
        exact .inl ⟨_, rfl⟩
      · cases h
        refine .inr ⟨fun _ => Sys.stack_setStack_self .., fun t' ht' => .inl ?_, by simp,
          fun _ _ => rfl, ?_, fun c' hc => ?_, rfl, by simp⟩
        · exact Sys.stack_setStack_of_ne s ht' _
        · rw [Sys.cpu_setCpu_self]
          rfl
        · rw [Sys.cpu_setCpu_of_ne _ hc]
          rfl
  | goto next => exact .inr (exec_goto h)
  | panic e =>
      cases h
      exact .inl ⟨e, rfl⟩

end Exec

/-! ## What the code does -/

/-- A frame is followed by a later point of the same activation, or by a call. -/
inductive Frame.Leads : Frame n → Frame n → Prop where
  | scheduler (pc pc') : Leads (.scheduler pc) (.scheduler pc')
  | yield (p pc pc') : Leads (.yield p pc) (.yield p pc')
  | sleep (p chan lk pc pc') : Leads (.sleep p chan lk pc) (.sleep p chan lk pc')
  | wakeup (chan pc pc') : Leads (.wakeup chan pc) (.wakeup chan pc')
  | kill (pid pc pc') : Leads (.kill pid pc) (.kill pid pc')
  | setkilled (q pc pc') : Leads (.setkilled q pc) (.setkilled q pc')
  | killed (q pc pc') : Leads (.killed q pc) (.killed q pc')
  | exit (p status pc pc') : Leads (.exit p status pc) (.exit p status pc')
  | exitWakeup (p status pc chan) : Leads (.exit p status pc) (.wakeup chan (.next 0))
  | wait (p pc pc') : Leads (.wait p pc) (.wait p pc')
  | waitSleep (p pc) : Leads (.wait p pc) (.sleep p (.proc p) .wait .acquire)
  | fork (p pc pc') : Leads (.fork p pc) (.fork p pc')

/-- The stores of the code, with the frames that make them and the tests before them. -/
inductive Assigns (s : Sys m n) : Frame n → Fin n → (Proc n → Proc n) → Prop where
  | run {p} : (s.proc p).state = .runnable →
      Assigns s (.scheduler (.test p)) p fun q => { q with state := .running }
  | yield {p} : Assigns s (.yield p .setState) p fun q => { q with state := .runnable }
  | setChan {p chan lk} : Assigns s (.sleep p chan lk .setChan) p fun q => { q with chan := chan }
  | sleep {p chan lk} :
      Assigns s (.sleep p chan lk .setState) p fun q => { q with state := .sleeping }
  | clearChan {p chan lk} :
      Assigns s (.sleep p chan lk .clearChan) p fun q => { q with chan := .null }
  | wakeup {chan p} : (s.proc p).state = .sleeping →
      Assigns s (.wakeup chan (.test p)) p fun q => { q with state := .runnable }
  | kill {pid p} : (s.proc p).pid = pid →
      Assigns s (.kill pid (.test p)) p fun q => { q with killed := true }
  | killWakeup {pid p} : (s.proc p).state = .sleeping →
      Assigns s (.kill pid (.setState p)) p fun q => { q with state := .runnable }
  | setkilled {p} : Assigns s (.setkilled p .store) p fun q => { q with killed := true }
  | reparent {p status} {q : Fin n} : (s.proc q).parent = some p →
      Assigns s (.exit p status (.reparent q)) q fun q => { q with parent := some s.initproc }
  | setXstate {p status} :
      Assigns s (.exit p status .setXstate) p fun q => { q with xstate := status }
  | exit {p status} : Assigns s (.exit p status .setState) p fun q => { q with state := .zombie }
  | waitFree {p pp} : Assigns s (.wait p (.freeFields pp)) pp Proc.free
  | waitUnused {p pp} : Assigns s (.wait p (.freeState pp)) pp fun q => { q with state := .unused }
  | setPid {p np pid} : Assigns s (.fork p (.setPid np pid)) np fun q => { q with pid := pid }
  | setUsed {p np} : Assigns s (.fork p (.setUsed np)) np fun q => { q with state := .used }
  | setParent {p np} : Assigns s (.fork p (.setParent np)) np fun q => { q with parent := some p }
  | setRunnable {p np} :
      Assigns s (.fork p (.setRunnable np)) np fun q => { q with state := .runnable }
  | forkFree {p np} : Assigns s (.fork p (.freeFields np)) np Proc.free
  | forkUnused {p np} : Assigns s (.fork p (.freeState np)) np fun q => { q with state := .unused }

/-- What a store of the frame `f` does to the state and the channel of `q`. -/
inductive Stores (s : Sys m n) (f : Frame n) (q : Fin n) (u : Proc n → Proc n) : Prop where
  /-- Nothing. -/
  | keep : (u (s.proc q)).state = (s.proc q).state → (u (s.proc q)).chan = (s.proc q).chan →
      Stores s f q u
  /-- The process runs, or may run. -/
  | wake : (u (s.proc q)).state = .running ∨ (u (s.proc q)).state = .runnable →
      (u (s.proc q)).chan = (s.proc q).chan → Stores s f q u
  /-- The process is a zombie, free or being made. -/
  | dead : ¬ (s.proc q).state.Live → ¬ (u (s.proc q)).state.Live → Stores s f q u
  | exit (status) : f = .exit q status .setState → (u (s.proc q)).state = .zombie →
      (u (s.proc q)).chan = (s.proc q).chan → Stores s f q u
  | setChan (chan lk) : f = .sleep q chan lk .setChan →
      (u (s.proc q)).state = (s.proc q).state → (u (s.proc q)).chan = chan → Stores s f q u
  | sleep (chan lk) : f = .sleep q chan lk .setState → (u (s.proc q)).state = .sleeping →
      (u (s.proc q)).chan = (s.proc q).chan → Stores s f q u
  | clearChan (chan lk) : f = .sleep q chan lk .clearChan →
      (u (s.proc q)).state = (s.proc q).state → Stores s f q u

/-- A call of `sleep` with the lock `lk`. -/
def Frame.SleepsWith (lk : Lock n) : Frame n → Prop
  | .sleep _ _ lk' _ => lk' = lk
  | _ => False

/-- The instructions that touch no lock, no process and no other stack. -/
def Instr.Plain : Instr n → Prop
  | .setNextpid _ _ | .setProc _ _ | .goto _ | .panic _ => True
  | _ => False

/-- What the instruction of a frame may be.  Only `sleep` takes and gives up locks
of other code. -/
inductive Does (s : Sys m n) (f : Frame n) : Instr n → Prop where
  | acquire {lk next} : (∀ g ∈ next, f.Leads g) → (∀ k, lk = .other k → f.SleepsWith lk) →
      Does s f (.acquire lk next)
  | release {lk next} : (∀ g ∈ next, f.Leads g) → (∀ k, lk = .other k → f.SleepsWith lk) →
      Does s f (.release lk next)
  | store {q u next} : (∀ g ∈ next, f.Leads g) → Assigns s f q u → Stores s f q u →
      Does s f (.store q u next)
  | setContext {p q} : f = .fork p (.setContext q) → Does s f (.setContext q [.fork p (.copy q)])
  | swtch {p next} : (∀ g ∈ next, f.Leads g) → f = .scheduler (.swtch p) → Does s f (.swtch p next)
  | sched {next} : (∀ g ∈ next, f.Leads g) → Does s f (.sched next)
  | plain {i} : (∀ g ∈ i.next, f.Leads g) → i.Plain → Does s f i

section Code

variable {s s' : Sys m n} {c : Fin m} {ok : Bool} {f g : Frame n} {rest : List (Frame n)}

theorem Frame.Leads.one (h : f.Leads g) : ∀ g' ∈ [g], f.Leads g' := by
  intro g' hg'
  cases List.mem_singleton.mp hg'
  exact h

theorem Frame.Leads.two {g' : Frame n} (h : f.Leads g) (h' : f.Leads g') :
    ∀ x ∈ [g, g'], f.Leads x := by
  intro x hx
  rcases List.mem_pair.mp hx with rfl | rfl
  · exact h
  · exact h'

theorem schedulerCode_does (s : Sys m n) (pc : SchedulerPc n) :
    Does s (.scheduler pc) (schedulerCode s pc) := by
  have hl := fun pc' => (Frame.Leads.scheduler pc pc').one
  cases pc with
  | acquire i =>
      simp only [schedulerCode]
      split
      · exact .acquire (hl _) (by simp)
      · exact .plain (hl _) trivial
  | test p =>
      simp only [schedulerCode]
      split
      · exact .store (hl _) (.run ‹_›) (.wake (.inl rfl) rfl)
      · exact .plain (hl _) trivial
  | swtch p => exact .swtch (hl _) rfl
  | release p => exact .release (hl _) (by simp)
  | _ => exact .plain (hl _) trivial

theorem yieldCode_does (s : Sys m n) (p : Fin n) (pc : YieldPc) :
    Does s (.yield p pc) (yieldCode p pc) := by
  have hl := fun pc' => (Frame.Leads.yield p pc pc').one
  cases pc with
  | acquire => exact .acquire (hl _) (by simp)
  | setState => exact .store (hl _) .yield (.wake (.inr rfl) rfl)
  | sched => exact .sched (hl _)
  | release => exact .release (by simp) (by simp)

theorem sleepCode_does (s : Sys m n) (p : Fin n) (chan : Chan n) (lk : Lock n) (pc : SleepPc) :
    Does s (.sleep p chan lk pc) (sleepCode p chan lk pc) := by
  have hl := fun pc' => (Frame.Leads.sleep p chan lk pc pc').one
  cases pc with
  | acquire => exact .acquire (hl _) (by simp)
  | releaseLk => exact .release (hl _) fun _ _ => rfl
  | sched => exact .sched (hl _)
  | release => exact .release (hl _) (by simp)
  | acquireLk => exact .acquire (by simp) fun _ _ => rfl
  | setChan => exact .store (hl _) .setChan (.setChan chan lk rfl rfl rfl)
  | setState => exact .store (hl _) .sleep (.sleep chan lk rfl rfl rfl)
  | clearChan => exact .store (hl _) .clearChan (.clearChan chan lk rfl rfl)

theorem wakeupCode_does (s : Sys m n) (me : Option (Fin n)) (chan : Chan n) (pc : WakeupPc n) :
    Does s (.wakeup chan pc) (wakeupCode s me chan pc) := by
  have hl := fun pc' => (Frame.Leads.wakeup chan pc pc').one
  cases pc with
  | next i =>
      simp only [wakeupCode]
      split
      · split
        · exact .plain (hl _) trivial
        · exact .acquire (hl _) (by simp)
      · exact .plain (by simp [Instr.next]) trivial
  | test p =>
      simp only [wakeupCode]
      split
      · exact .store (hl _) (.wakeup (And.left ‹_›)) (.wake (.inr rfl) rfl)
      · exact .plain (hl _) trivial
  | release p => exact .release (hl _) (by simp)

theorem killCode_does (s : Sys m n) (pid : Int) (pc : KillPc n) :
    Does s (.kill pid pc) (killCode s pid pc) := by
  have hl := fun pc' => (Frame.Leads.kill pid pc pc').one
  cases pc with
  | acquire i =>
      simp only [killCode]
      split
      · exact .acquire (hl _) (by simp)
      · exact .plain (by simp [Instr.next]) trivial
  | test p =>
      simp only [killCode]
      split
      · exact .store (hl _) (.kill ‹_›) (.keep rfl rfl)
      · exact .plain (hl _) trivial
  | setState p =>
      simp only [killCode]
      split
      · exact .store (hl _) (.killWakeup ‹_›) (.wake (.inr rfl) rfl)
      · exact .plain (hl _) trivial
  | release p found =>
      cases found with
      | true => exact .release (by simp) (by simp)
      | false => exact .release (hl _) (by simp)

theorem setkilledCode_does (s : Sys m n) (q : Fin n) (pc : KilledPc) :
    Does s (.setkilled q pc) (setkilledCode q pc) := by
  have hl := fun pc' => (Frame.Leads.setkilled q pc pc').one
  cases pc with
  | acquire => exact .acquire (hl _) (by simp)
  | store => exact .store (hl _) .setkilled (.keep rfl rfl)
  | release => exact .release (by simp) (by simp)

theorem killedCode_does (s : Sys m n) (q : Fin n) (pc : KilledPc) :
    Does s (.killed q pc) (killedCode q pc) := by
  have hl := fun pc' => (Frame.Leads.killed q pc pc').one
  cases pc with
  | acquire => exact .acquire (hl _) (by simp)
  | store => exact .plain (hl _) trivial
  | release => exact .release (by simp) (by simp)

theorem exitCode_does (s : Sys m n) (p : Fin n) (status : Int) (pc : ExitPc) :
    Does s (.exit p status pc) (exitCode s p status pc) := by
  have hl := fun pc' => (Frame.Leads.exit p status pc pc').one
  have hw := fun chan pc' =>
    (Frame.Leads.exitWakeup p status pc chan).two (Frame.Leads.exit p status pc pc')
  cases pc with
  | acquireWait => exact .acquire (hl _) (by simp)
  | reparent i =>
      simp only [exitCode]
      split
      · split
        · exact .store (hw _ _) (.reparent ‹_›) (.keep rfl rfl)
        · exact .plain (hl _) trivial
      · exact .plain (hl _) trivial
  | wakeupParent => exact .plain (hw _ _) trivial
  | acquire => exact .acquire (hl _) (by simp)
  | setXstate => exact .store (hl _) .setXstate (.keep rfl rfl)
  | setState => exact .store (hl _) .exit (.exit status rfl rfl rfl)
  | releaseWait => exact .release (hl _) (by simp)
  | sched => exact .sched (hl _)
  | zombie => exact .plain (by simp [exitCode, Instr.next]) trivial

theorem SchedInv.waitCode_does (h : SchedInv s) {p : Fin n} {pc : WaitPc n}
    (hst : s.stack (s.thread c) = .wait p pc :: rest) : Does s (.wait p pc) (waitCode s ok p pc) := by
  have hl := fun pc' => (Frame.Leads.wait p pc pc').one
  have hsees := h.sees_of hst
  cases pc with
  | scan i havekids =>
      simp only [waitCode]
      split
      · split <;> exact .plain (hl _) trivial
      · split <;> exact .plain (hl _) trivial
  | test pp =>
      simp only [waitCode]
      split <;> exact .plain (hl _) trivial
  | copyout pp =>
      simp only [waitCode]
      split <;> exact .plain (hl _) trivial
  | freeFields pp =>
      have hz : (s.proc pp).state = .zombie := hsees pp .zombie rfl
      exact .store (hl _) .waitFree (.dead (by rw [hz]; exact id) (by rw [Proc.free, hz]; exact id))
  | freeState pp =>
      have hz : (s.proc pp).state = .zombie := hsees pp .zombie rfl
      exact .store (hl _) .waitUnused (.dead (by rw [hz]; exact id) id)
  | killedRelease k => cases k <;> exact .release (hl _) (by simp)
  | killedTest => exact .plain (hl _) trivial
  | sleep => exact .plain ((Frame.Leads.waitSleep p _).two (.wait ..)) trivial
  | acquireWait => exact .acquire (hl _) (by simp)
  | acquire pp => exact .acquire (hl _) (by simp)
  | killedAcquire => exact .acquire (hl _) (by simp)
  | release pp => exact .release (hl _) (by simp)
  | releaseNext pp => exact .release (hl _) (by simp)
  | releaseWait => exact .release (by simp) (by simp)

theorem SchedInv.forkCode_does (h : SchedInv s) {p : Fin n} {pc : ForkPc n}
    (hst : s.stack (s.thread c) = .fork p pc :: rest) : Does s (.fork p pc) (forkCode s ok p pc) := by
  have hl := fun pc' => (Frame.Leads.fork p pc pc').one
  have hsees := h.sees_of hst
  have hchild := fun q => h.frames.used (s.thread c) (.fork p pc) q
    (mem_top hst)
  cases pc with
  | acquire i =>
      simp only [forkCode]
      split
      · exact .acquire (hl _) (by simp)
      · exact .plain (by simp [Instr.next]) trivial
  | test np =>
      simp only [forkCode]
      split <;> exact .plain (hl _) trivial
  | alloc np =>
      simp only [forkCode]
      split <;> exact .plain (hl _) trivial
  | copy np =>
      simp only [forkCode]
      split <;> exact .plain (hl _) trivial
  | pidNext np => exact .plain (hl _) trivial
  | setContext np => exact .setContext rfl
  | setPid np pid => exact .store (hl _) .setPid (.keep rfl rfl)
  | setUsed np =>
      have hu : (s.proc np).state = .unused := hsees np .unused rfl
      exact .store (hl _) .setUsed (.dead (by rw [hu]; exact id) id)
  | setParent np => exact .store (hl _) .setParent (.keep rfl rfl)
  | setRunnable np => exact .store (hl _) .setRunnable (.wake (.inr rfl) rfl)
  | freeFields np =>
      have hu : (s.proc np).state = .used := (hchild np rfl).1
      exact .store (hl _) .forkFree (.dead (by rw [hu]; exact id) (by rw [Proc.free, hu]; exact id))
  | freeState np =>
      have hu : (s.proc np).state = .used := (hchild np rfl).1
      exact .store (hl _) .forkUnused (.dead (by rw [hu]; exact id) id)
  | pidAcquire np => exact .acquire (hl _) (by simp)
  | acquireWait np => exact .acquire (hl _) (by simp)
  | reacquire np => exact .acquire (hl _) (by simp)
  | releaseLast np => exact .release (by simp) (by simp)
  | releaseNext np => exact .release (hl _) (by simp)
  | pidRelease np pid => exact .release (hl _) (by simp)
  | release np => exact .release (hl _) (by simp)
  | releaseWait np => exact .release (hl _) (by simp)

theorem SchedInv.code_does (h : SchedInv s) (hst : s.stack (s.thread c) = f :: rest) (ok : Bool) :
    Does s f (code s c ok f) := by
  cases f with
  | scheduler pc => exact schedulerCode_does s pc
  | forkret p => exact .release (by simp) (by simp)
  | yield p pc => exact yieldCode_does s p pc
  | sleep p chan lk pc => exact sleepCode_does s p chan lk pc
  | wakeup chan pc => exact wakeupCode_does s _ chan pc
  | kill pid pc => exact killCode_does s pid pc
  | setkilled q pc => exact setkilledCode_does s q pc
  | killed q pc => exact killedCode_does s q pc
  | exit p status pc => exact exitCode_does s p status pc
  | wait p pc => exact h.waitCode_does hst
  | fork p pc => exact h.forkCode_does hst

theorem Does.leads {i : Instr n} (h : Does s f i) : ∀ g ∈ i.next, f.Leads g := by
  cases h with
  | acquire hl => exact hl
  | release hl => exact hl
  | store hl => exact hl
  | setContext hf =>
      subst hf
      exact (Frame.Leads.fork ..).one
  | swtch hl => exact hl
  | sched hl => exact hl
  | plain hl => exact hl

/-- The stores of a step, seen from one process. -/
theorem Effects.stores {t : Thread m n} {i : Instr n} (hd : Does s f i)
    (he : Effects s s' c t rest i) (q : Fin n) :
    s'.proc q = s.proc q ∨ ∃ u, s'.proc q = u (s.proc q) ∧ Assigns s f q u ∧ Stores s f q u := by
  by_cases hi : ∃ u next, i = .store q u next
  · obtain ⟨u, next, rfl⟩ := hi
    cases hd with
    | store _ ha hsto => exact .inr ⟨u, he.store q u next rfl, ha, hsto⟩
    | plain _ hp => exact hp.elim
  · exact .inl (he.proc q fun u next hu => hi ⟨u, next, hu⟩)

/-! ## A step of a CPU, seen from the processes -/

theorem SchedInv.run_effects (h : SchedInv s) (hs' : schedAct s (.run c ok) = some s') :
    (∃ e, s' = s.halt e) ∨ ∃ f rest, s.stack (s.thread c) = f :: rest ∧
      Does s f (code s c ok f) ∧ Effects s s' c (s.thread c) rest (code s c ok f) := by
  simp only [schedAct] at hs'
  split at hs'
  · cases hs'
  · rename_i f rest hst
    rcases exec_effects hs' with he | he
    · exact .inl he
    · exact .inr ⟨f, rest, hst, h.code_does hst ok, he⟩

theorem call_effects {p : Fin n} {x : Call n} (hp : (s.cpu c).proc = some p)
    (hs' : schedAct s (.call c x) = some s') :
    s.stack (s.thread c) = [] ∧
      ((∃ e status, x = .exit status ∧ s' = s.halt e) ∨
        s' = s.setStack (s.thread c) [Call.frame p x]) := by
  simp only [schedAct, hp] at hs'
  split at hs'
  · rename_i hnil
    refine ⟨hnil, ?_⟩
    cases x with
    | exit status =>
        simp only at hs'
        split at hs' <;> cases hs'
        · exact .inl ⟨_, status, rfl, rfl⟩
        · exact .inr rfl
    | _ =>
        cases hs'
        exact .inr rfl
  · cases hs'

variable {i : Instr n}

section

variable (h : SchedInv s) (hst : s.stack (s.thread c) = f :: rest) (hd : Does s f i)

include h hst hd

/-- A process whose context is set is being made. -/
theorem SchedInv.used_of_setContext {q : Fin n} {next : List (Frame n)}
    (hi : i = .setContext q next) :
    (s.proc q).state = .used := by
  cases hd with
  | setContext hf =>
      cases hi
      exact (h.frames.used _ f q (mem_top hst) (by rw [hf]; rfl)).1
  | plain _ hp =>
      subst hi
      exact hp.elim
  | _ => cases hi

theorem SchedInv.self_stack (he : Effects s s' c (s.thread c) rest i) :
    s'.stack (s.thread c) = i.next ++ rest :=
  he.self fun _ _ hi => h.thread_ne c (.inr (h.used_of_setContext hst hd hi))

theorem SchedInv.other_stack (he : Effects s s' c (s.thread c) rest i) {q : Fin n}
    (hq : (s.cpu c).cur ≠ some q) :
    s'.stack (.proc q) = s.stack (.proc q) ∨
      ((s.proc q).state = .used ∧ s'.stack (.proc q) = [.forkret q]) := by
  rcases he.other (.proc q) fun ht => hq (thread_eq_proc.mp ht.symm) with hsame | ⟨r, next, hi, hr, hst'⟩
  · exact .inl hsame
  · cases hr
    exact .inr ⟨h.used_of_setContext hst hd hi, hst'⟩

end

/-- Only `sleep` touches a lock of other code. -/
theorem SchedInv.other_locks (h : SchedInv s) (hd : Does s f i) {t : Thread m n}
    (he : Effects s s' c t rest i) {k : Nat} (hf : ¬ f.SleepsWith (.other k)) (c' : Fin m) :
    (.other k, c') ∈ s'.locks ↔ (.other k, c') ∈ s.locks := by
  rw [he.locks]
  cases hd with
  | acquire _ hlk =>
      simp only [Instr.locks, List.mem_cons, Prod.mk.injEq]
      refine or_iff_right fun hk => hf ?_
      have := hlk k hk.1.symm
      rwa [← hk.1] at this
  | @release lk next _ hlk =>
      rw [Instr.locks, h.locks.one.mem_release (he.mem lk next rfl)]
      refine and_iff_right fun hk => hf ?_
      cases hk
      exact hlk k rfl
  | plain _ hp =>
      cases i with
      | acquire lk next => exact hp.elim
      | release lk next => exact hp.elim
      | _ => exact Iff.rfl
  | _ => exact Iff.rfl

/-- The stack that a CPU is on after a step: it was on it before, or the scheduler
has switched to it. -/
theorem SchedInv.cur_step (h : SchedInv s) (hst : s.stack (s.thread c) = f :: rest)
    (hd : Does s f i) (he : Effects s s' c (s.thread c) rest i) {q : Fin n}
    (hq : (s'.cpu c).cur = some q) :
    (s.cpu c).cur = some q ∨ (f = .scheduler (.swtch q) ∧ (s.cpu c).cur = none) := by
  rw [he.cur] at hq
  cases hd with
  | swtch _ hf =>
      cases hq
      subst hf
      exact .inr ⟨rfl, (h.scheduler_top hst).1⟩
  | sched => cases hq
  | plain _ hp =>
      cases i with
      | swtch p next => exact hp.elim
      | sched next => exact hp.elim
      | _ => exact .inl hq
  | _ => exact .inl hq

end Code

end Xv6
