import Xv6.Proc.Switch

/-!
# A process runs on at most one CPU

Every step of every function keeps the invariant of the scheduler, and so does
every run.  So a process is in `c->proc` of at most one CPU, with its lock free
it is `RUNNING` exactly if it is there, and no CPU executes on its kernel stack
while it is in another state with its lock free.
-/

namespace Xv6

variable {m n : Nat} {f g : Frame n}

/-! ## The code -/

/-- `g` is a later point of the same activation as `f`, with the same state of
the process. -/
structure Next (f g : Frame n) : Prop where
  runsOn : ∀ {m} (t : Thread m n), f.RunsOn t → g.RunsOn t
  own : g.own = f.own
  child : g.child = f.child
  ready : g.Ready → f.Ready
  sched : ∀ pc, f = .scheduler pc →
    ∃ pc', g = .scheduler pc' ∧ pc.claim = none ∧ pc'.claim = none ∧ pc'.proc = pc.proc
  wakeup : ∀ chan pc, f = .wakeup chan pc → ∃ pc', g = .wakeup chan pc'

theorem Next.follows (h : Next f g) : Follows f [g] :=
  ⟨fun t ht g' hg' => by cases List.mem_singleton.mp hg'; exact h.runsOn t ht, by simp⟩

theorem Next.stays (h : Next f g) : Stays f [g] := by
  refine ⟨h.own, fun pc he => ?_, fun chan pc he => ?_⟩
  · obtain ⟨pc', rfl, hpc⟩ := h.sched pc he
    exact ⟨pc', rfl, hpc⟩
  · obtain ⟨pc', rfl⟩ := h.wakeup chan pc he
    exact .inr ⟨pc', rfl⟩

theorem Next.keeps (h : Next f g) : Keeps f [g] := by
  refine ⟨?_, fun g' hg' => ?_⟩
  · rw [children_cons, h.child]
    exact List.append_nil _
  · cases List.mem_singleton.mp hg'
    exact h.ready

/-- Neither `scheduler` nor `wakeup`, which also run in scheduler threads. -/
def Frame.Plain : Frame n → Prop
  | .scheduler _ | .wakeup _ _ => False
  | _ => True

theorem Next.of_plain (hp : f.Plain) (hr : ∀ {m} (t : Thread m n), f.RunsOn t → g.RunsOn t)
    (ho : g.own = f.own) (hc : g.child = f.child) (hready : g.Ready → f.Ready) : Next f g := by
  refine ⟨hr, ho, hc, hready, fun pc he => ?_, fun chan pc he => ?_⟩
  · subst he
    exact hp.elim
  · subst he
    exact hp.elim

section Code

variable {s s' : Sys m n} {c : Fin m} {f g g' : Frame n} {rest : List (Frame n)} {p q : Fin n}
  {lk : Lock n} {a : SchedAct m n}

/-- A frame that sees no process. -/
theorem unseen (h : g.sees = none) : ∀ q x, g.sees = some (q, x) → (s.proc q).state = x := by
  simp [h]

theorem Next.wakeup_frame (chan : Chan n) (pc pc' : WakeupPc n) :
    Next (.wakeup chan pc) (.wakeup chan pc') :=
  ⟨fun _ ht => ht, rfl, rfl, id, by simp, by simp⟩

theorem Next.scheduler_frame {pc pc' : SchedulerPc n} (hc : pc.claim = none)
    (hc' : pc'.claim = none) (hp : pc'.proc = pc.proc) :
    Next (.scheduler pc) (.scheduler pc') := by
  refine ⟨fun _ ht => ht, rfl, rfl, id, fun pc₁ he => ?_, by simp⟩
  cases he
  exact ⟨pc', rfl, hc, hc', hp⟩

/-! What follows is used for the points of one function, where most conditions hold by
computation. -/

section

variable (h : SchedInv s) (hst : s.stack (s.thread c) = f :: rest)

include h hst

theorem SchedInv.next_goto (hs' : s.exec c (s.thread c) rest (.goto [g]) = some s')
    (hs : ∀ q x, g.sees = some (q, x) → (s.proc q).state = x := by exact unseen rfl)
    (hn : Next f g := by
      first
      | exact .of_plain trivial (fun _ ht => ht) rfl rfl id
      | exact .of_plain trivial (fun _ ht => ht) rfl rfl fun hr => hr.elim
      | exact .wakeup_frame ..
      | exact .scheduler_frame rfl rfl rfl)
    (hh : g.holds = f.holds := by rfl) : SchedInv s' := by
  cases hs'
  refine h.goto hst hn.follows hn.stays hn.keeps hh fun g' hg' => ?_
  cases List.mem_singleton.mp hg'
  exact hs

theorem SchedInv.next_store {u : Proc n → Proc n}
    (hs' : s.exec c (s.thread c) rest (.store q u [g]) = some s')
    (hs : ∀ q x, g.sees = some (q, x) → (s.proc q).state = x := by exact unseen rfl)
    (hn : Next f g := by exact .of_plain trivial (fun _ ht => ht) rfl rfl id)
    (hh : g.holds = f.holds := by rfl) (hu : ∀ r, (u r).state = r.state := by exact fun _ => rfl) :
    SchedInv s' := by
  cases hs'
  refine h.store hst hn.follows hn.stays hn.keeps hh (fun g' hg' => ?_) hu
  cases List.mem_singleton.mp hg'
  exact hs

theorem SchedInv.next_acquire (hs' : s.exec c (s.thread c) rest (.acquire lk [g]) = some s')
    (hs : ∀ q x, g.sees = some (q, x) → (s.proc q).state = x := by exact unseen rfl)
    (hn : Next f g := by
      first
      | exact .of_plain trivial (fun _ ht => ht) rfl rfl id
      | exact .wakeup_frame ..
      | exact .scheduler_frame rfl rfl rfl)
    (hh : ∀ q, g.holds = some q ↔ f.holds = some q ∨ lk = .proc q := by
      simp [Frame.holds, SchedulerPc.holds]) : SchedInv s' := by
  refine h.acquire hst hn.follows hn.stays hn.keeps (fun g' hg' => ?_) hh hs'
  cases List.mem_singleton.mp hg'
  exact hs

theorem SchedInv.next_release (hs' : s.exec c (s.thread c) rest (.release lk [g]) = some s')
    (hs : ∀ q x, g.sees = some (q, x) → (s.proc q).state = x := by exact unseen rfl)
    (hn : Next f g := by
      first
      | exact .of_plain trivial (fun _ ht => ht) rfl rfl id
      | exact .wakeup_frame ..
      | exact .scheduler_frame rfl rfl rfl)
    (hh : ∀ q, g.holds = some q ↔ f.holds = some q ∧ lk ≠ .proc q := by
      simp [Frame.holds, SchedulerPc.holds]) : SchedInv s' := by
  cases hs'
  refine h.release hst hn.follows hn.stays hn.keeps (fun g' hg' => ?_) hh
  cases List.mem_singleton.mp hg'
  exact hs

end

/-- A frame that may return. -/
structure Ends (f : Frame n) : Prop where
  own : f.own = .running
  child : f.child = none
  sched : ∀ pc, f ≠ .scheduler pc

theorem Ends.follows (_ : Ends f) : Follows f [] := ⟨by simp, by simp⟩

theorem Ends.stays (he : Ends f) : Stays f [] :=
  ⟨he.own.symm, fun pc hf => absurd hf (he.sched pc), fun _ _ _ => .inl rfl⟩

theorem Ends.keeps (he : Ends f) : Keeps f [] := ⟨by rw [he.child]; rfl, by simp⟩

section

variable (h : SchedInv s) (hst : s.stack (s.thread c) = f :: rest)

include h hst

theorem SchedInv.return (hs' : s.exec c (s.thread c) rest (.goto []) = some s')
    (he : Ends f := by exact ⟨rfl, rfl, by simp⟩) (hh : f.holds = none := by rfl) :
    SchedInv s' := by
  cases hs'
  exact h.goto hst he.follows he.stays he.keeps hh.symm (by simp)

theorem SchedInv.return_release (hs' : s.exec c (s.thread c) rest (.release lk []) = some s')
    (he : Ends f := by exact ⟨rfl, rfl, by simp⟩)
    (hh : ∀ q, f.holds = some q → lk = .proc q := by simp [Frame.holds]) : SchedInv s' := by
  cases hs'
  refine h.release hst he.follows he.stays he.keeps (by simp) fun q => ?_
  constructor
  · intro hq
    cases hq
  · rintro ⟨hq, hne⟩
    exact absurd (hh q hq) hne

theorem SchedInv.return_acquire (hs' : s.exec c (s.thread c) rest (.acquire lk []) = some s')
    (he : Ends f) (hh : f.holds = none) (hlk : ∀ q, lk ≠ .proc q) : SchedInv s' := by
  refine h.acquire hst he.follows he.stays he.keeps (by simp) (fun q => ?_) hs'
  rw [hh]
  simp [topHolds, hlk]

/-- What a frame sees. -/
theorem SchedInv.sees_of :
    ∀ q x, f.sees = some (q, x) → (s.proc q).state = x := fun q x hx =>
  (h.frames.sees (s.thread c) f q x (mem_top hst) hx).1

/-- The process of a frame is the one on the CPU. -/
theorem SchedInv.cur_of_runsOn (hf : ∀ t : Thread m n, f.RunsOn t → t = .proc p) :
    (s.cpu c).cur = some p :=
  thread_eq_proc.mp (hf _ (h.frames.runsOn _ f (mem_top hst)))

/-- `sched()`, whose tests may fail. -/
theorem SchedInv.next_sched (hs' : s.exec c (s.thread c) rest (.sched [g]) = some s')
    (hcur : (s.cpu c).cur = some p) (hf : f.holds = some p) (hleft : f.own.Left)
    (hruns : ∀ {m} (t : Thread m n), f.RunsOn t → g.RunsOn t) (hgc : g.child = none)
    (hfc : f.child = none) (hsees : g.sees = none) (hres : f.own.Live → g.Resumes p) :
    SchedInv s' := by
  simp only [Sys.exec] at hs'
  split at hs'
  · cases hs'
    exact h.halt _
  · cases hs'
    refine h.sched hst hcur hf hleft ⟨fun t ht g' hg' => ?_, by simp⟩ hgc hfc hsees hres
    cases List.mem_singleton.mp hg'
    exact hruns t ht

end

theorem SchedInv.yield_step (h : SchedInv s) {pc : YieldPc}
    (hst : s.stack (s.thread c) = .yield p pc :: rest)
    (hs' : s.exec c (s.thread c) rest (yieldCode p pc) = some s') : SchedInv s' := by
  have hcur : (s.cpu c).cur = some p := h.cur_of_runsOn hst fun _ ht => ht
  cases pc with
  | acquire => exact h.next_acquire hst hs'
  | setState =>
      cases hs'
      exact h.storeOwn hst hcur rfl rfl (fun _ ht => ht) rfl rfl rfl rfl
  | sched => exact h.next_sched hst hs' hcur rfl trivial (fun _ ht => ht) rfl rfl rfl fun _ => rfl
  | release => exact h.return_release hst hs'

theorem SchedInv.sleep_step (h : SchedInv s) {chan : Chan n} {pc : SleepPc}
    (hst : s.stack (s.thread c) = .sleep p chan lk pc :: rest)
    (hs' : s.exec c (s.thread c) rest (sleepCode p chan lk pc) = some s') : SchedInv s' := by
  have hcur : (s.cpu c).cur = some p := h.cur_of_runsOn hst fun _ ht => ht.1
  have hlk : ∀ q, lk ≠ .proc q :=
    (h.frames.runsOn _ (.sleep p chan lk pc) (mem_top hst)).2
  cases pc with
  | acquire => exact h.next_acquire hst hs'
  | releaseLk =>
      exact h.next_release hst hs' (unseen rfl) (.of_plain trivial (fun _ ht => ht) rfl rfl id)
        (by simp [Frame.holds, hlk])
  | setChan => exact h.next_store hst hs'
  | setState =>
      cases hs'
      exact h.storeOwn hst hcur rfl rfl (fun _ ht => ht) rfl rfl rfl rfl
  | sched => exact h.next_sched hst hs' hcur rfl trivial (fun _ ht => ht) rfl rfl rfl fun _ => rfl
  | clearChan => exact h.next_store hst hs'
  | release => exact h.next_release hst hs'
  | acquireLk => exact h.return_acquire hst hs' ⟨rfl, rfl, by simp⟩ rfl hlk

/-- A process that is woken up can be resumed. -/
theorem SchedInv.wake (h : SchedInv s) (hst : s.stack (s.thread c) = f :: rest)
    (hs' : s.exec c (s.thread c) rest (.store q (fun r => { r with state := .runnable }) [g]) =
      some s') (hq : f.holds = some q) (hown : f.own = .running) (hns : ∀ pc, f ≠ .scheduler pc)
    (hs : (s.proc q).state = .sleeping) (hn : Next f g) (hg : g.holds = some q)
    (hfc : f.child = none) (hsees : g.sees = none) :
    SchedInv s' := by
  cases hs'
  have hno := h.not_claims hst hq hown (fun pc he => absurd he (hns pc)) (by rw [hs]; simp)
  refine h.storeOther hst hq hg hn.runsOn hn.stays hown hns (by simp [hsees])
    (.inl ⟨hfc, hn.child.trans hfc, by rw [hs]; simp⟩) (by rw [hs]; simp) (by simp) fun _ => ?_
  exact h.cpus.resume q (fun c' hc' => hno c' (h.claims_of_cur hc')) (by rw [hs]; trivial)

theorem SchedInv.wakeup_step (h : SchedInv s) {me : Option (Fin n)} {chan : Chan n}
    {pc : WakeupPc n} (hst : s.stack (s.thread c) = .wakeup chan pc :: rest)
    (hs' : s.exec c (s.thread c) rest (wakeupCode s me chan pc) = some s') : SchedInv s' := by
  cases pc with
  | next i =>
      simp only [wakeupCode] at hs'
      split at hs'
      · split at hs'
        · exact h.next_goto hst hs'
        · exact h.next_acquire hst hs'
      · exact h.return hst hs'
  | test q =>
      simp only [wakeupCode] at hs'
      split at hs'
      · rename_i hq
        exact h.wake hst hs' rfl rfl (by simp) hq.1 (.wakeup_frame ..) rfl rfl rfl
      · exact h.next_goto hst hs'
  | release q => exact h.next_release hst hs'

theorem SchedInv.kill_step (h : SchedInv s) {pid : Int} {pc : KillPc n}
    (hst : s.stack (s.thread c) = .kill pid pc :: rest)
    (hs' : s.exec c (s.thread c) rest (killCode s pid pc) = some s') : SchedInv s' := by
  cases pc with
  | acquire i =>
      simp only [killCode] at hs'
      split at hs'
      · exact h.next_acquire hst hs'
      · exact h.return hst hs'
  | test q =>
      simp only [killCode] at hs'
      split at hs'
      · exact h.next_store hst hs'
      · exact h.next_goto hst hs'
  | setState q =>
      simp only [killCode] at hs'
      split at hs'
      · rename_i hq
        exact h.wake hst hs' rfl rfl (by simp) hq (.of_plain trivial (fun _ ht => ht) rfl rfl id)
          rfl rfl rfl
      · exact h.next_goto hst hs'
  | release q found =>
      cases found with
      | false => exact h.next_release hst hs'
      | true => exact h.return_release hst hs'

theorem SchedInv.setkilled_step (h : SchedInv s) {pc : KilledPc}
    (hst : s.stack (s.thread c) = .setkilled q pc :: rest)
    (hs' : s.exec c (s.thread c) rest (setkilledCode q pc) = some s') : SchedInv s' := by
  cases pc with
  | acquire => exact h.next_acquire hst hs'
  | store => exact h.next_store hst hs'
  | release => exact h.return_release hst hs'

theorem SchedInv.killed_step (h : SchedInv s) {pc : KilledPc}
    (hst : s.stack (s.thread c) = .killed q pc :: rest)
    (hs' : s.exec c (s.thread c) rest (killedCode q pc) = some s') : SchedInv s' := by
  cases pc with
  | acquire => exact h.next_acquire hst hs'
  | store => exact h.next_goto hst hs'
  | release => exact h.return_release hst hs'

/-- A frame calls another function and goes on as `g` when it returns. -/
theorem Next.call (hn : Next f g) (g' : Frame n) (hp : f.Plain) (hf : f.own = .running)
    (hg : g.holds = none)
    (hr : ∀ {m} (t : Thread m n), f.RunsOn t → g'.RunsOn t) (hg' : g'.holds = none)
    (hc : g'.child = none) :
    Follows f [g', g] ∧ Stays f [g', g] ∧ Keeps f [g', g] := by
  refine ⟨⟨fun t ht x hx => ?_, ?_⟩, ⟨?_, fun pc he => ?_, fun chan pc he => ?_⟩,
    ⟨?_, fun x hx hready => ?_⟩⟩
  · rcases List.mem_pair.mp hx with rfl | rfl
    · exact hr t ht
    · exact hn.runsOn t ht
  · simpa using hg
  · rw [hf]
    exact Frame.own_of_holds hg'
  · subst he
    exact hp.elim
  · subst he
    exact hp.elim
  · rw [children_cons, children_cons, hc, hn.child]
    exact List.append_nil _
  · rcases List.mem_pair.mp hx with rfl | rfl
    · exact absurd hready (Frame.not_ready hc)
    · exact hn.ready hready

theorem call_sees (hg : g.holds = none) (hg' : g'.holds = none) :
    ∀ x ∈ [g', g], ∀ q y, x.sees = some (q, y) → (s.proc q).state = y := by
  intro x hx q y hs
  rcases List.mem_pair.mp hx with rfl | rfl
  · exact absurd hs (Frame.sees_of_holds hg' q y)
  · exact absurd hs (Frame.sees_of_holds hg q y)

section

variable (h : SchedInv s)

include h

theorem SchedInv.exit_step {status : Int} {pc : ExitPc}
    (hst : s.stack (s.thread c) = .exit p status pc :: rest)
    (hs' : s.exec c (s.thread c) rest (exitCode s p status pc) = some s') : SchedInv s' := by
  have hcur : (s.cpu c).cur = some p := h.cur_of_runsOn hst fun _ ht => ht
  cases pc with
  | acquireWait => exact h.next_acquire hst hs'
  | reparent i =>
      simp only [exitCode] at hs'
      split at hs'
      · split at hs'
        · cases hs'
          have hn : Next (.exit p status (.reparent i)) (.exit p status (.reparent (i + 1))) :=
            .of_plain trivial (fun _ ht => ht) rfl rfl id
          obtain ⟨hf, hy, hk⟩ := hn.call (.wakeup (.proc s.initproc) (.next 0)) trivial rfl rfl
            (fun _ _ => trivial) rfl rfl
          exact h.store hst hf hy hk rfl (call_sees rfl rfl) fun _ => rfl
        · exact h.next_goto hst hs'
      · exact h.next_goto hst hs'
  | wakeupParent =>
      cases hs'
      have hn : Next (.exit p status .wakeupParent) (.exit p status .acquire) :=
        .of_plain trivial (fun _ ht => ht) rfl rfl id
      obtain ⟨hf, hy, hk⟩ := hn.call (.wakeup ((s.proc p).parent.elim .null .proc) (.next 0))
        trivial rfl rfl (fun _ _ => trivial) rfl rfl
      exact h.goto hst hf hy hk rfl (call_sees rfl rfl)
  | acquire => exact h.next_acquire hst hs'
  | setXstate => exact h.next_store hst hs'
  | setState =>
      cases hs'
      exact h.storeOwn hst hcur rfl rfl (fun _ ht => ht) rfl rfl rfl rfl
  | releaseWait => exact h.next_release hst hs'
  | sched =>
      exact h.next_sched hst hs' hcur rfl trivial (fun _ ht => ht) rfl rfl rfl fun hl => hl.elim
  | zombie =>
      cases hs'
      exact h.halt _

theorem SchedInv.wait_step {ok : Bool} {pc : WaitPc n}
    (hst : s.stack (s.thread c) = .wait p pc :: rest)
    (hs' : s.exec c (s.thread c) rest (waitCode s ok p pc) = some s') : SchedInv s' := by
  have hsees := h.sees_of hst
  cases pc with
  | acquireWait => exact h.next_acquire hst hs'
  | scan i havekids =>
      simp only [waitCode] at hs'
      split at hs'
      · split at hs'
        · exact h.next_goto hst hs'
        · exact h.next_goto hst hs'
      · split at hs'
        · exact h.next_goto hst hs'
        · exact h.next_goto hst hs'
  | acquire pp => exact h.next_acquire hst hs'
  | test pp =>
      simp only [waitCode] at hs'
      split at hs'
      · rename_i hz
        exact h.next_goto hst hs' fun q x hx => by cases hx; exact hz
      · exact h.next_goto hst hs'
  | copyout pp =>
      simp only [waitCode] at hs'
      split at hs'
      · exact h.next_goto hst hs' hsees
      · exact h.next_goto hst hs'
  | freeFields pp => exact h.next_store hst hs' hsees
  | freeState pp =>
      cases hs'
      have hz : (s.proc pp).state = .zombie := hsees pp .zombie rfl
      have hn : Next (.wait p (.freeState pp)) (.wait p (.release pp)) :=
        .of_plain trivial (fun _ ht => ht) rfl rfl id
      exact h.storeOther hst rfl rfl hn.runsOn hn.stays rfl (by simp) (fun r x hx => by cases hx)
        (.inl ⟨rfl, rfl, by rw [hz]; simp⟩) (by rw [hz]; simp) (by simp) fun hl => hl.elim
  | release pp => exact h.next_release hst hs'
  | releaseNext pp => exact h.next_release hst hs'
  | killedAcquire => exact h.next_acquire hst hs'
  | killedTest => exact h.next_goto hst hs'
  | killedRelease k =>
      cases k with
      | true => exact h.next_release hst hs'
      | false => exact h.next_release hst hs'
  | sleep =>
      cases hs'
      have hn : Next (.wait p .sleep) (.wait p (.scan 0 false)) :=
        .of_plain trivial (fun _ ht => ht) rfl rfl id
      obtain ⟨hf, hy, hk⟩ := hn.call (.sleep p (.proc p) .wait .acquire) trivial rfl rfl
        (fun _ ht => ⟨ht, by simp⟩) rfl rfl
      exact h.goto hst hf hy hk rfl (call_sees rfl rfl)
  | releaseWait => exact h.return_release hst hs'

/-- The new process gets a context that starts at `forkret`. -/
theorem SchedInv.fork_setContext {np : Fin n}
    (hst : s.stack (s.thread c) = .fork p (.setContext np) :: rest) :
    SchedInv ((s.setStack (s.thread c) ([.fork p (.copy np)] ++ rest)).setStack (.proc np)
      [.forkret np]) := by
  have hused : (s.proc np).state = .used :=
    (h.frames.used _ (.fork p (.setContext np)) np (mem_top hst) rfl).1
  have hne : s.thread c ≠ .proc np := h.thread_ne c (.inr hused)
  have h' := h.resetStack hused
  have hst' : (s.setStack (.proc np) [.forkret np]).stack (s.thread c) =
      .fork p (.setContext np) :: rest := by rw [Sys.stack_setStack_of_ne _ hne, hst]
  have hcomm : (s.setStack (s.thread c) ([.fork p (.copy np)] ++ rest)).setStack (.proc np)
      [.forkret np] = (s.setStack (.proc np) [.forkret np]).setStack (s.thread c)
        ([.fork p (.copy np)] ++ rest) := by
    unfold Sys.setStack
    rw [Function.update_comm hne]
  rw [hcomm]
  have hm : Moves (s.setStack (.proc np) [.forkret np]) ((s.setStack (.proc np)
      [.forkret np]).setStack (s.thread c) ([.fork p (.copy np)] ++ rest)) (s.thread c)
      ([.fork p (.copy np)] ++ rest) := ⟨fun _ => rfl, fun _ => rfl, fun _ => rfl, rfl⟩
  have hy : Stays (.fork p (.setContext np)) [.fork p (.copy np)] := ⟨rfl, by simp, by simp⟩
  refine ⟨.same h' hst' hm rfl (fun _ => rfl) rfl,
    .replace h' hst' hm.cur hm.state hm.stack ⟨fun t ht g hg => ?_, by simp⟩ rfl ?_ ?_,
    .replace h' hst' hm hy⟩
  · cases List.mem_singleton.mp hg
    exact ht
  · intro g hg q hq _
    cases List.mem_singleton.mp hg
    cases hq
    exact Sys.stack_setStack_self ..
  · intro g hg q x hx
    cases List.mem_singleton.mp hg
    cases hx

theorem SchedInv.fork_step {ok : Bool} {pc : ForkPc n}
    (hst : s.stack (s.thread c) = .fork p pc :: rest)
    (hs' : s.exec c (s.thread c) rest (forkCode s ok p pc) = some s') : SchedInv s' := by
  have hsees := h.sees_of hst
  have hchild := fun q => h.frames.used (s.thread c) (.fork p pc) q
    (mem_top hst)
  cases pc with
  | acquire i =>
      simp only [forkCode] at hs'
      split at hs'
      · exact h.next_acquire hst hs'
      · exact h.return hst hs'
  | test np =>
      simp only [forkCode] at hs'
      split at hs'
      · rename_i hu
        exact h.next_goto hst hs' fun q x hx => by cases hx; exact hu
      · exact h.next_goto hst hs'
  | releaseNext np => exact h.next_release hst hs'
  | pidAcquire np => exact h.next_acquire hst hs' hsees
  | pidNext np =>
      cases hs'
      have hn : Next (.fork p (.pidNext np)) (.fork p (.pidRelease np s.nextpid)) :=
        .of_plain trivial (fun _ ht => ht) rfl rfl id
      refine h.setNextpid hst hn.follows hn.stays hn.keeps rfl (fun g hg => ?_) _
      cases List.mem_singleton.mp hg
      exact hsees
  | pidRelease np pid => exact h.next_release hst hs' hsees
  | setPid np pid => exact h.next_store hst hs' hsees
  | setUsed np =>
      cases hs'
      have hu : (s.proc np).state = .unused := hsees np .unused rfl
      exact h.storeOther (g := .fork p (.alloc np)) hst rfl rfl (fun _ ht => ht)
        ⟨rfl, by simp, by simp⟩ rfl (by simp) (fun r x hx => by cases hx)
        (.inr (.inl ⟨rfl, rfl, id, by rw [hu]; simp, rfl⟩)) (by rw [hu]; simp) (by simp)
        fun hl => hl.elim
  | alloc np =>
      simp only [forkCode] at hs'
      split at hs'
      · exact h.next_goto hst hs'
      · exact h.next_goto hst hs'
  | setContext np =>
      cases hs'
      exact h.fork_setContext hst
  | copy np =>
      simp only [forkCode] at hs'
      split at hs'
      · exact h.next_goto hst hs'
      · exact h.next_goto hst hs'
  | release np => exact h.next_release hst hs'
  | acquireWait np => exact h.next_acquire hst hs'
  | setParent np => exact h.next_store hst hs'
  | releaseWait np => exact h.next_release hst hs'
  | reacquire np => exact h.next_acquire hst hs'
  | setRunnable np =>
      cases hs'
      obtain ⟨hu, hctx⟩ := hchild np rfl
      exact h.storeOther (g := .fork p (.releaseLast np)) hst rfl rfl (fun _ ht => ht)
        ⟨rfl, by simp, by simp⟩ rfl (by simp) (fun r x hx => by cases hx) (.inr (.inr ⟨rfl, rfl⟩))
        (by rw [hu]; simp) (by simp) fun _ => ⟨_, _, hctx trivial, rfl⟩
  | releaseLast np => exact h.return_release hst hs'
  | freeFields np => exact h.next_store hst hs'
  | freeState np =>
      cases hs'
      obtain ⟨hu, -⟩ := hchild np rfl
      exact h.storeOther (g := .fork p (.releaseLast np)) hst rfl rfl (fun _ ht => ht)
        ⟨rfl, by simp, by simp⟩ rfl (by simp) (fun r x hx => by cases hx) (.inr (.inr ⟨rfl, rfl⟩))
        (by rw [hu]; simp) (by simp) fun hl => hl.elim

theorem SchedInv.scheduler_step {pc : SchedulerPc n}
    (hst : s.stack (s.thread c) = .scheduler pc :: rest)
    (hs' : s.exec c (s.thread c) rest (schedulerCode s pc) = some s') : SchedInv s' := by
  obtain ⟨-, -, rfl, -⟩ := h.scheduler_top hst
  cases pc with
  | acquire i =>
      simp only [schedulerCode] at hs'
      split at hs'
      · exact h.next_acquire hst hs'
      · exact h.next_goto hst hs'
  | test q =>
      simp only [schedulerCode] at hs'
      split at hs'
      · rename_i hq
        cases hs'
        exact h.scheduler_test hst hq
      · exact h.next_goto hst hs'
  | setProc q =>
      cases hs'
      exact h.scheduler_setProc hst
  | swtch q =>
      cases hs'
      exact h.scheduler_swtch hst
  | clearProc q =>
      cases hs'
      exact h.scheduler_clearProc hst
  | release q => exact h.next_release hst hs'

theorem SchedInv.code_step {ok : Bool} (hst : s.stack (s.thread c) = f :: rest)
    (hs' : s.exec c (s.thread c) rest (code s c ok f) = some s') : SchedInv s' := by
  cases f with
  | scheduler pc => exact h.scheduler_step hst hs'
  | forkret p => exact h.return_release hst hs'
  | yield p pc => exact h.yield_step hst hs'
  | sleep p chan lk pc => exact h.sleep_step hst hs'
  | wakeup chan pc => exact h.wakeup_step hst hs'
  | kill pid pc => exact h.kill_step hst hs'
  | setkilled q pc => exact h.setkilled_step hst hs'
  | killed q pc => exact h.killed_step hst hs'
  | exit p status pc => exact h.exit_step hst hs'
  | wait p pc => exact h.wait_step hst hs'
  | fork p pc => exact h.fork_step hst hs'

/-! ## Steps and runs -/

/-- A CPU with interrupts on holds no lock of a process. -/
theorem SchedInv.topHolds_of_noff (hn : (s.cpu c).noff = 0) :
    topHolds (s.stack (s.thread c)) = none := by
  rw [h.locks.noff] at hn
  cases ht : topHolds (s.stack (s.thread c)) with
  | none => rfl
  | some q => exact absurd ((h.locks.held c q).mpr ht) (Spin.Held.notMem_of_count_zero hn _)

/-- On the stack of a process the process is `myproc()`. -/
theorem SchedInv.proc_of_cur (hcur : (s.cpu c).cur = some p) :
    (s.cpu c).proc = some p := by
  obtain ⟨pc, hpc, hproc⟩ := h.cpus.sched c
  rw [(h.cpus.onProc c p hcur).1] at hpc
  cases hpc
  exact hproc

theorem SchedInv.claims_of_proc (hp : (s.cpu c).proc = some p) : s.Claims c p := by
  obtain ⟨pc, hpc, hproc⟩ := h.cpus.sched c
  rw [hp] at hproc
  cases hst : s.stack (.scheduler c) with
  | nil =>
      rw [hst] at hpc
      cases hpc
  | cons f rest =>
      rw [hst] at hpc
      cases pc with
      | swtch q =>
          cases hproc
          cases hpc with
          | base => exact ⟨_, hst, rfl⟩
          | intr _ _ _ hh => cases hh
      | clearProc q =>
          cases hproc
          cases hpc with
          | base => exact ⟨_, hst, rfl⟩
          | intr _ _ _ hh => cases hh
      | _ => cases hproc

/-- A CPU that claims a process and does not hold its lock is on its stack. -/
theorem SchedInv.cur_of_claims (hc : s.Claims c p) (hlock : (.proc p, c) ∉ s.locks) :
    (s.cpu c).cur = some p := by
  cases hcur : (s.cpu c).cur with
  | some q => rw [h.claims_eq_of_cur hcur hc]
  | none =>
      obtain ⟨pc, hst, hcl⟩ := hc
      refine absurd ((h.locks.held c p).mpr ?_) hlock
      rw [thread_eq_scheduler.mpr ⟨hcur, rfl⟩, hst]
      cases pc with
      | setProc q => exact hcl
      | swtch q => exact hcl
      | clearProc q => exact hcl
      | _ => cases hcl

theorem SchedInv.cur_of_proc (hp : (s.cpu c).proc = some p)
    (htop : topHolds (s.stack (s.thread c)) = none) : (s.cpu c).cur = some p := by
  refine h.cur_of_claims (h.claims_of_proc hp) fun hl => ?_
  rw [h.locks.held, htop] at hl
  cases hl

theorem SchedInv.act (hs' : schedAct s a = some s') : SchedInv s' := by
  cases a with
  | run c ok =>
      simp only [schedAct] at hs'
      split at hs'
      · cases hs'
      · rename_i hst
        exact h.code_step hst hs'
  | call c f =>
      simp only [schedAct] at hs'
      split at hs'
      · rename_i hst
        have htop : topHolds (s.stack (s.thread c)) = none := by rw [hst]; rfl
        have hpush : ∀ {p : Fin n} (f : Call n), (s.cpu c).proc = some p →
            SchedInv (s.setStack (s.thread c) [Call.frame p f]) := by
          intro p f hp
          have hcur := h.cur_of_proc hp htop
          have hpush := h.push (g := Call.frame p f) htop (by cases f <;> rfl)
            (by rw [thread_eq_proc.mpr hcur]; cases f <;> simp [Call.frame, Frame.RunsOn, Thread.IsProc])
            (by cases f <;> rfl) (fun hn => by rw [hcur] at hn; cases hn)
          rwa [Sys.push, hst] at hpush
        split at hs'
        · cases hs'
        · rename_i p status hp
          split at hs'
          · cases hs'
            exact h.halt _
          · cases hs'
            exact hpush _ hp
        · rename_i p hp _
          cases hs'
          exact hpush _ hp
      · cases hs'
  | acquire c k =>
      simp only [schedAct] at hs'
      split at hs'
      · exact h.acquireOther hs'
      · cases hs'
  | release c k =>
      simp only [schedAct] at hs'
      split at hs'
      · cases hs'
        exact h.releaseOther
      · cases hs'
  | timer c =>
      simp only [schedAct] at hs'
      split at hs'
      · rename_i hn
        have htop := h.topHolds_of_noff hn
        split at hs'
        · cases hs'
        · rename_i p hp
          cases hs'
          have hcur := h.cur_of_proc hp htop
          exact h.push htop rfl (thread_eq_proc.mpr hcur) rfl fun hn => by rw [hcur] at hn; cases hn
      · cases hs'
  | intr c chan =>
      simp only [schedAct] at hs'
      split at hs'
      · rename_i hn
        cases hs'
        exact h.push (h.topHolds_of_noff hn) rfl trivial rfl fun _ => ⟨_, _, rfl⟩
      · cases hs'

theorem SchedInv.step (hs' : schedStep s a = some s') : SchedInv s' := by
  unfold schedStep at hs'
  split at hs'
  · exact h.act hs'
  · cases hs'

end

theorem SchedInv.run {initproc : Fin n} {as : List (SchedAct m n)}
    (hs' : Run.exec schedStep (Sys.init m n initproc) as = some s') : SchedInv s' :=
  Run.exec_invariant (fun _ _ _ h hs => h.step hs) (SchedInv.init m n initproc) hs'

/-! ## The processes and the CPUs -/

theorem SchedInv.proc_unique (h : SchedInv s) {c' : Fin m} (hc : (s.cpu c).proc = some p)
    (hc' : (s.cpu c').proc = some p) : c = c' :=
  h.cpus.uniq c c' p (h.claims_of_proc hc) (h.claims_of_proc hc')

theorem SchedInv.running_iff (h : SchedInv s) (hfree : s.locks.Free (.proc p)) :
    (s.proc p).state = .running ↔ ∃! c, (s.cpu c).proc = some p := by
  constructor
  · intro hrun
    have hclaim : ∃ c, s.Claims c p := by
      by_contra hno
      exact h.cpus.idle p (fun c hc => hno ⟨c, hc⟩) hrun
    obtain ⟨c, hc⟩ := hclaim
    have hp := h.proc_of_cur (h.cur_of_claims hc (hfree.notMem c))
    exact ⟨c, hp, fun c' hc' => h.proc_unique hc' hp⟩
  · rintro ⟨c, hc, -⟩
    by_contra hrun
    exact hfree.notMem c (h.lock_of_claims (h.claims_of_proc hc) hrun).1

/-- A process that has left `RUNNING` and given up its lock is off the CPUs. -/
theorem SchedInv.off_of_free (h : SchedInv s) (hfree : s.locks.Free (.proc p))
    (hp : (s.proc p).state ≠ .running) : s.Off p := fun c hc =>
  hfree.notMem c (h.lock_of_claims (h.claims_of_cur hc) hp).1

/-- A process that `wait` is about to free is off the CPUs. -/
theorem SchedInv.off_of_sees (h : SchedInv s) (hst : s.stack (s.thread c) = f :: rest)
    {x : ProcState} (hs : f.sees = some (p, x)) : s.Off p := by
  obtain ⟨hholds, hrun, -⟩ := Frame.holds_of_sees hs
  have hx := h.sees_of hst p x hs
  have hown : f.own = .running := by
    cases f with
    | wait q pc => rfl
    | fork q pc => rfl
    | _ => cases hs
  have hns : ∀ pc, f ≠ .scheduler pc := by
    rintro pc rfl
    cases hs
  exact fun c' hc' => h.not_claims hst hholds hown (fun pc he => absurd he (hns pc))
    (by rw [hx]; exact hrun) c' (h.claims_of_cur hc')

/-- At its `swtch` the scheduler loads the context of a process that has been
saved and is in use by no CPU. -/
theorem SchedInv.swtch_resumes (h : SchedInv s)
    (hst : s.stack (s.thread c) = .scheduler (.swtch p) :: rest) :
    s.Off p ∧ ∃ f rest', s.stack (.proc p) = f :: rest' ∧ f.Resumes p := by
  obtain ⟨hcur, ht, rfl, -⟩ := h.scheduler_top hst
  rw [ht] at hst
  have hoff := h.off_of_claims hcur ⟨_, hst, rfl⟩
  refine ⟨hoff, h.cpus.resume p hoff ?_⟩
  rw [h.cpus.before c p hcur (.inr hst)]
  trivial

/-- In every state of every run a process is in `c->proc` of at most one CPU.
With its lock free it is `RUNNING` exactly if it is there, and in the other
states no CPU is on its kernel stack.  `wait` frees no process whose stack is in
use, and `swtch` loads no context that is still being saved. -/
theorem one_cpu {initproc : Fin n} {as : List (SchedAct m n)}
    (hrun : Run.exec schedStep (Sys.init m n initproc) as = some s) :
    (∀ p c c', (s.cpu c).proc = some p → (s.cpu c').proc = some p → c = c') ∧
    (∀ p, s.locks.Free (.proc p) →
      ((s.proc p).state = .running ↔ ∃! c, (s.cpu c).proc = some p)) ∧
    (∀ p, s.locks.Free (.proc p) →
      (s.proc p).state ∈ [.runnable, .sleeping, .unused, .zombie] →
      ∀ c, (s.cpu c).cur ≠ some p) ∧
    (∀ c p pp rest, (s.stack (s.thread c) = .wait p (.freeFields pp) :: rest ∨
        s.stack (s.thread c) = .wait p (.freeState pp) :: rest) →
      ∀ c', (s.cpu c').cur ≠ some pp) ∧
    ∀ c p rest, s.stack (s.thread c) = .scheduler (.swtch p) :: rest →
      (∀ c', (s.cpu c').cur ≠ some p) ∧
      ∃ f rest', s.stack (.proc p) = f :: rest' ∧ f.Resumes p := by
  have h := SchedInv.run hrun
  refine ⟨fun p c c' => h.proc_unique, fun p => h.running_iff, fun p hfree hp => ?_,
    fun c p pp rest hst => ?_, fun c p rest => h.swtch_resumes⟩
  · refine h.off_of_free hfree fun he => ?_
    rw [he] at hp
    simp at hp
  · rcases hst with hst | hst <;> exact h.off_of_sees hst rfl

end Code

/-- One CPU starts the first process, which then runs with its lock free. -/
def firstRun : List (SchedAct 2 2) := List.replicate 5 (.run 0 true)

theorem firstRun_isSome : (Run.exec schedStep (Sys.init 2 2 0) firstRun).isSome := by decide

theorem one_cpu_firstRun :
    ∃ s, Run.exec schedStep (Sys.init 2 2 0) firstRun = some s ∧ s.locks.Free (.proc 0) ∧
      (s.proc 0).state = .running ∧ ∃! c, (s.cpu c).proc = some 0 := by
  have hs := (Option.some_get firstRun_isSome).symm
  have hrun : ((Option.get _ firstRun_isSome).proc 0).state = .running := by decide
  have hfree : (Option.get _ firstRun_isSome).locks.Free (.proc 0) := by decide
  exact ⟨_, hs, hfree, hrun, ((one_cpu hs).2.1 0 hfree).mp hrun⟩

end Xv6
