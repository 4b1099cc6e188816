import Xv6.Proc.SchedInv

/-!
# Switching between the scheduler and a process

The steps that change hands: a process that leaves `RUNNING`, the steps of
`scheduler` from its test to `c->proc = 0`, and `sched`.  Across `swtch` the CPU
goes on with another stack and keeps the lock of the process, so what the two
stacks say about the lock has to agree.  Then calls, interrupts and the locks of
other code, which the invariant does not see.
-/

namespace Xv6

variable {m n : Nat}

/-! ## The steps around `swtch` -/

section Switch

variable {s : Sys m n} {c : Fin m} {f g : Frame n} {rest : List (Frame n)} {p : Fin n}
  {u : Proc n → Proc n}

theorem SchedInv.claims_eq_of_cur (h : SchedInv s) (hcur : (s.cpu c).cur = some p) {r : Fin n}
    (hr : s.Claims c r) : r = p := by
  obtain ⟨pc, hst, hcl⟩ := hr
  rw [(h.cpus.onProc c p hcur).1] at hst
  cases hst
  cases hcl
  rfl

/-- A process leaves `RUNNING`, under its own lock. -/
theorem SchedInv.storeOwn (h : SchedInv s) (hst : s.stack (s.thread c) = f :: rest)
    (hcur : (s.cpu c).cur = some p) (hf : f.holds = some p) (hg : g.holds = some p)
    (hruns : ∀ t : Thread m n, f.RunsOn t → g.RunsOn t) (hsees : g.sees = none)
    (hfc : f.child = none) (hgc : g.child = none) (hu : (u (s.proc p)).state = g.own) :
    SchedInv ((s.setStack (s.thread c) ([g] ++ rest)).setPcb p u) := by
  have ht : s.thread c = .proc p := thread_eq_proc.mpr hcur
  have hclaim := h.claims_of_cur hcur
  have hm : Moves s (s.setStack (s.thread c) ([g] ++ rest)) (s.thread c) ([g] ++ rest) :=
    ⟨fun _ => rfl, fun _ => rfl, fun _ => rfl, rfl⟩
  have hl : LocksOk (s.setStack (s.thread c) ([g] ++ rest)) :=
    .same h hst hm rfl (fun _ => rfl) (by rw [hf]; exact hg)
  have hstate := fun r => setPcb_state (s.setStack (s.thread c) ([g] ++ rest)) p r u
  have hsch : ∀ c', (s.setStack (s.thread c) ([g] ++ rest)).stack (.scheduler c') =
      s.stack (.scheduler c') := fun c' => Sys.stack_setStack_of_ne _ (by rw [ht]; simp) _
  refine ⟨⟨hl.one, hl.noff, hl.held⟩, .storeState h hst hf hruns (by simp [hsees])
    (.inl ⟨hfc, hgc, (h.state_of_claims hclaim).2⟩), .concerns h (c := c) (p := p) ?_ ?_⟩
  · refine ⟨fun _ _ => rfl, fun c' _ => hsch c', fun r hr => by rw [hstate, if_neg hr]; rfl,
      fun r hr => Sys.stack_setStack_of_ne _ (by rw [ht]; simpa using hr) _,
      fun c' hcc hc' => hcc (h.cpus.uniq _ _ _ hc' hclaim),
      fun r hr hc' => hr (h.claims_eq_of_cur hcur hc'), ?_⟩
    rintro r hr ⟨pc, hpc, hcl⟩
    exact hr (h.claims_eq_of_cur hcur ⟨pc, (hsch c).symm.trans hpc, hcl⟩)
  · have hnone : (s.cpu c).cur ≠ none := by rw [hcur]; simp
    obtain ⟨pc, hpc⟩ := h.cpus.sched c
    refine ⟨⟨pc, ?_⟩, .inr hcur, fun _ => ⟨?_, ?_⟩, fun hn => absurd hn hnone,
      fun hn => absurd hn hnone, fun hno => absurd ?_ hno, fun hn => absurd hn hnone⟩
    · exact ⟨(hsch c).symm ▸ hpc.1, hpc.2⟩
    · exact (hsch c).trans (h.cpus.onProc c p hcur).1
    · rw [hstate, if_pos rfl]
      show _ = topOwn ((s.setStack (s.thread c) ([g] ++ rest)).stack (.proc p))
      rw [← ht, Sys.stack_setStack_self]
      exact hu
    · exact ⟨_, (hsch c).trans (h.cpus.onProc c p hcur).1, rfl⟩

/-- A change of the record of a CPU whose thread sees nothing. -/
theorem StacksOk.setCpu (h : StacksOk s) (hno : ∀ f ∈ s.stack (s.thread c), f.sees = none)
    (v : Cpu n → Cpu n) : StacksOk (s.setCpu c v) := by
  refine ⟨h.runsOn, h.lower, fun t f q x hf hx => ?_, h.used, h.nodup, h.disjoint⟩
  obtain ⟨hstate, c', rfl⟩ := h.sees t f q x hf hx
  refine ⟨hstate, c', ?_⟩
  have hcc : c' ≠ c := by
    rintro rfl
    rw [hno f hf] at hx
    cases hx
  unfold Sys.thread
  rw [Sys.cpu_setCpu_of_ne _ hcc]

/-- The innermost frame of a scheduler thread in `scheduler` is the only one. -/
theorem SchedInv.scheduler_top (h : SchedInv s) {pc : SchedulerPc n}
    (hst : s.stack (s.thread c) = .scheduler pc :: rest) :
    (s.cpu c).cur = none ∧ s.thread c = .scheduler c ∧ rest = [] ∧
      (s.cpu c).proc = pc.proc := by
  cases hcur : (s.cpu c).cur with
  | some p =>
      have hruns := h.frames.runsOn (s.thread c) (.scheduler pc)
        (mem_top hst)
      rw [thread_eq_proc.mpr hcur] at hruns
      exact hruns.elim
  | none =>
      have ht : s.thread c = .scheduler c := thread_eq_scheduler.mpr ⟨hcur, rfl⟩
      obtain ⟨pc', hsch, hproc⟩ := h.cpus.sched c
      rw [ht] at hst
      rw [hst] at hsch
      cases hsch
      exact ⟨rfl, ht, rfl, hproc⟩

/-- The locks and the stacks after a step inside `scheduler`. -/
theorem SchedInv.scheduler_goto (h : SchedInv s) {pc : SchedulerPc n}
    (hst : s.stack (s.thread c) = [.scheduler pc]) (pc' : SchedulerPc n)
    (hh : pc'.holds = pc.holds) :
    LocksOk (s.setStack (s.thread c) [.scheduler pc']) ∧
      StacksOk (s.setStack (s.thread c) [.scheduler pc']) := by
  have hm : Moves s (s.setStack (s.thread c) [.scheduler pc']) (s.thread c)
      ([.scheduler pc'] ++ []) := ⟨fun _ => rfl, fun _ => rfl, fun _ => rfl, rfl⟩
  refine ⟨.same h hst hm rfl (fun _ => rfl) hh, .replace h hst hm.cur hm.state hm.stack ?_ rfl ?_ ?_⟩
  · refine ⟨fun t ht g hg => ?_, by simp⟩
    cases List.mem_singleton.mp hg
    exact ht
  · intro g hg q hq
    cases List.mem_singleton.mp hg
    cases hq
  · intro g hg q x hx
    cases List.mem_singleton.mp hg
    cases hx

/-- A step of `scheduler` concerns the process it has claimed or claims now. -/
theorem SchedInv.scheduler_concerns (h : SchedInv s) {s' : Sys m n} {pc : SchedulerPc n}
    (hst : s.stack (s.thread c) = [.scheduler pc]) (pc' : SchedulerPc n)
    (hstack : s'.stack = Function.update s.stack (.scheduler c) [.scheduler pc'])
    (hcpu : ∀ c', c' ≠ c → s'.cpu c' = s.cpu c')
    (hstate : ∀ r, r ≠ p → (s'.proc r).state = (s.proc r).state)
    (hothers : ∀ c', c' ≠ c → ¬ s.Claims c' p) (hpc : pc.claim = none ∨ pc.claim = some p)
    (hpc' : pc'.claim = none ∨ pc'.claim = some p) : Concerns s s' c p := by
  obtain ⟨-, ht, -⟩ := h.scheduler_top hst
  rw [ht] at hst
  have hone : ∀ {pc₁ : SchedulerPc n} {r}, (pc₁.claim = none ∨ pc₁.claim = some p) → r ≠ p →
      pc₁.claim ≠ some r := by
    intro pc₁ r h1 hr hcl
    rcases h1 with h1 | h1 <;> rw [h1] at hcl <;> cases hcl
    exact hr rfl
  refine ⟨hcpu, fun c' hcc => ?_, hstate, fun r _ => ?_, hothers, ?_, ?_⟩
  · rw [hstack, Function.update_of_ne (by simpa using hcc)]
  · rw [hstack, Function.update_of_ne (by simp)]
  · rintro r hr ⟨pc₁, h1, h2⟩
    rw [hst] at h1
    cases h1
    exact hone hpc hr h2
  · rintro r hr ⟨pc₁, h1, h2⟩
    rw [hstack, Function.update_self] at h1
    cases h1
    exact hone hpc' hr h2

/-- A process that a CPU claims in its scheduler is off the CPUs. -/
theorem SchedInv.off_of_claims (h : SchedInv s) (hcur : (s.cpu c).cur = none)
    (hc : s.Claims c p) : s.Off p := by
  intro c' hc'
  have := h.cpus.uniq _ _ _ (h.claims_of_cur hc') hc
  subst this
  rw [hcur] at hc'
  cases hc'

/-- `p->state = RUNNING` in `scheduler`. -/
theorem SchedInv.scheduler_test (h : SchedInv s)
    (hst : s.stack (s.thread c) = [.scheduler (.test p)]) (hp : (s.proc p).state = .runnable) :
    SchedInv ((s.setStack (s.thread c) [.scheduler (.setProc p)]).setPcb p
      fun q => { q with state := .running }) := by
  obtain ⟨hcur, ht, -, hproc⟩ := h.scheduler_top hst
  obtain ⟨hl, -⟩ := h.scheduler_goto hst (.setProc p) rfl
  have hno : ∀ c', ¬ s.Claims c' p := h.not_claims hst rfl rfl
    (fun pc he => by cases he; rfl) (by rw [hp]; simp)
  have hstate := fun r => setPcb_state (s.setStack (s.thread c) [.scheduler (.setProc p)]) p r
    fun q => { q with state := .running }
  have hst' : (s.setStack (s.thread c) [.scheduler (.setProc p)]).stack (.scheduler c) =
      [.scheduler (.setProc p)] := by rw [← ht, Sys.stack_setStack_self]
  have hbase : SchedStack ((s.setStack (s.thread c) [.scheduler (.setProc p)]).stack (.scheduler c))
      (.setProc p) := by rw [hst']; exact .base _
  refine ⟨⟨hl.one, hl.noff, hl.held⟩, ?_, .concerns h (c := c) (p := p) ?_ ?_⟩
  · exact .storeState (g := .scheduler (.setProc p)) h hst rfl (fun _ ht => ht)
      (fun r x hx => by cases hx) (.inl ⟨rfl, rfl, by rw [hp]; simp⟩)
  · refine h.scheduler_concerns hst (.setProc p) ?_ (fun _ _ => rfl) (fun r hr => ?_)
      (fun c' _ => hno c') (.inl rfl) (.inr rfl)
    · rw [← ht]
      rfl
    · rw [hstate, if_neg hr]
      rfl
  · refine ⟨⟨.setProc p, hbase, hproc⟩, .inl hcur, fun he => ?_, fun _ _ => ?_, fun _ he => ?_,
      fun hn => absurd ⟨_, hst', rfl⟩ hn, fun _ _ => ?_⟩
    · change (s.cpu c).cur = some p at he
      rw [hcur] at he
      cases he
    · rw [hstate, if_pos rfl]
    · cases hst'.symm.trans he
    · obtain ⟨f, rest, hf, hr⟩ := h.cpus.resume p
        (fun c' hc' => hno c' (h.claims_of_cur hc')) (by rw [hp]; trivial)
      refine ⟨f, rest, ?_, hr⟩
      rw [← hf]
      exact Sys.stack_setStack_of_ne _ (by rw [ht]; simp) _

/-- The scheduler sees no process. -/
theorem scheduler_sees {pc : SchedulerPc n} : ∀ f ∈ [Frame.scheduler pc], f.sees = none := by
  intro f hf
  cases List.mem_singleton.mp hf
  rfl

/-- A change of the record of a CPU that keeps `noff` and what the CPU holds. -/
theorem LocksOk.setCpu (h : LocksOk s) {v : Cpu n → Cpu n}
    (hnoff : (v (s.cpu c)).noff = (s.cpu c).noff)
    (htop : topHolds (s.stack ((s.setCpu c v).thread c)) = topHolds (s.stack (s.thread c))) :
    LocksOk (s.setCpu c v) := by
  refine ⟨h.one, fun c' => ?_, fun c' q => ?_⟩
  · rw [setCpu_noff]
    split
    · rename_i hcc
      rw [hnoff, hcc]
      exact h.noff c
    · exact h.noff c'
  · show (.proc q, c') ∈ s.locks ↔ topHolds (s.stack ((s.setCpu c v).thread c')) = some q
    rw [h.held]
    by_cases hcc : c' = c
    · rw [hcc, htop]
    · have : (s.setCpu c v).thread c' = s.thread c' := by
        unfold Sys.thread
        rw [Sys.cpu_setCpu_of_ne _ hcc]
      rw [this]

section Scheduler

variable {pc pc' : SchedulerPc n} {v : Cpu n → Cpu n}

/-- A step of `scheduler` that changes the record of the CPU and not the table. -/
theorem SchedInv.scheduler_setCpu (h : SchedInv s) (hst : s.stack (s.thread c) = [.scheduler pc])
    (hh : pc'.holds = pc.holds) (hnoff : (v (s.cpu c)).noff = (s.cpu c).noff)
    (htop : (v (s.cpu c)).cur = none ∨ ∃ q, (v (s.cpu c)).cur = some q ∧
      topHolds (s.stack (.proc q)) = pc.holds)
    (hpc : pc.claim = some p) (hpc' : pc'.claim = none ∨ pc'.claim = some p)
    (ho : CpuOk ((s.setStack (s.thread c) [.scheduler pc']).setCpu c v) c p) :
    SchedInv ((s.setStack (s.thread c) [.scheduler pc']).setCpu c v) := by
  obtain ⟨hcur, ht, -, -⟩ := h.scheduler_top hst
  obtain ⟨hl, hk⟩ := h.scheduler_goto hst pc' hh
  have hclaim : s.Claims c p := ⟨pc, by rw [← ht]; exact hst, hpc⟩
  have ht' : (s.setStack (s.thread c) [.scheduler pc']).thread c = s.thread c := rfl
  have hcpu' := Sys.cpu_setCpu_self (s.setStack (s.thread c) [.scheduler pc']) c v
  refine ⟨hl.setCpu hnoff ?_, hk.setCpu ?_ v, .concerns h ?_ ho⟩
  · rw [ht', Sys.stack_setStack_self]
    rcases htop with hnone | ⟨q, hq, htop⟩
    · have : ((s.setStack (s.thread c) [.scheduler pc']).setCpu c v).thread c = s.thread c := by
        rw [ht, thread_eq_scheduler, ← ht, hcpu']
        exact ⟨hnone, rfl⟩
      rw [this, Sys.stack_setStack_self]
    · have : ((s.setStack (s.thread c) [.scheduler pc']).setCpu c v).thread c = .proc q := by
        rw [thread_eq_proc, hcpu']
        exact hq
      rw [this, Sys.stack_setStack_of_ne _ (by rw [ht]; simp), htop, ← hh]
      rfl
  · rw [ht', Sys.stack_setStack_self]
    exact scheduler_sees
  · refine h.scheduler_concerns hst pc' (by rw [← ht]; rfl)
      (fun c' hcc => Sys.cpu_setCpu_of_ne _ hcc _) (fun _ _ => rfl)
      (fun c' hcc hc' => hcc (h.cpus.uniq _ _ _ hc' hclaim)) (.inr hpc) hpc'

/-- The stacks after a step of `scheduler`. -/
theorem SchedInv.scheduler_stacks (h : SchedInv s) (hst : s.stack (s.thread c) = [.scheduler pc])
    (pc' : SchedulerPc n) :
    ((s.setStack (s.thread c) [.scheduler pc']).setCpu c v).stack (.scheduler c) =
        [.scheduler pc'] ∧
      ∀ q, ((s.setStack (s.thread c) [.scheduler pc']).setCpu c v).stack (.proc q) =
        s.stack (.proc q) := by
  obtain ⟨-, ht, -, -⟩ := h.scheduler_top hst
  rw [ht]
  refine ⟨Sys.stack_setStack_self s _ _, fun q => ?_⟩
  have hne : (Thread.proc q : Thread m n) ≠ .scheduler c := by simp
  exact Sys.stack_setStack_of_ne s hne [.scheduler pc']

/-- `c->proc = p` in `scheduler`. -/
theorem SchedInv.scheduler_setProc (h : SchedInv s)
    (hst : s.stack (s.thread c) = [.scheduler (.setProc p)]) :
    SchedInv ((s.setStack (s.thread c) [.scheduler (.swtch p)]).setCpu c
      fun r => { r with proc := some p }) := by
  obtain ⟨hcur, ht, -, -⟩ := h.scheduler_top hst
  have hclaim : s.Claims c p := ⟨_, by rw [← ht]; exact hst, rfl⟩
  obtain ⟨hst', hstp⟩ := h.scheduler_stacks (v := fun r => { r with proc := some p }) hst (.swtch p)
  refine h.scheduler_setCpu (p := p) hst rfl rfl (.inl hcur) rfl (.inr rfl) ?_
  refine ⟨⟨.swtch p, by rw [hst']; exact .base _, ?_⟩, .inl ?_, fun he => ?_, fun _ _ => ?_,
    fun _ he => ?_, fun hn => absurd ⟨_, hst', rfl⟩ hn, fun _ hlive => ?_⟩
  · rw [Sys.cpu_setCpu_self]
    rfl
  · rw [Sys.cpu_setCpu_self]
    exact hcur
  · rw [Sys.cpu_setCpu_self] at he
    exact absurd (hcur.symm.trans he) (by simp)
  · exact h.cpus.before c p hcur (.inl (by rw [← ht]; exact hst))
  · rw [hst'] at he
    cases he
  · obtain ⟨f, rest, hf, hr⟩ := h.cpus.resume p (h.off_of_claims hcur hclaim) hlive
    exact ⟨f, rest, by rw [hstp, hf], hr⟩

/-- `swtch(&c->context, &p->context)`: the CPU goes on with the process, which
now answers for the lock. -/
theorem SchedInv.scheduler_swtch (h : SchedInv s)
    (hst : s.stack (s.thread c) = [.scheduler (.swtch p)]) :
    SchedInv ((s.setStack (s.thread c) [.scheduler (.clearProc p)]).setCpu c
      fun r => { r with cur := some p }) := by
  obtain ⟨hcur, ht, -, hproc⟩ := h.scheduler_top hst
  have hclaim : s.Claims c p := ⟨_, by rw [← ht]; exact hst, rfl⟩
  have hrun := h.cpus.before c p hcur (.inr (by rw [← ht]; exact hst))
  obtain ⟨f, rest, hf, hr⟩ := h.cpus.resume p (h.off_of_claims hcur hclaim) (by rw [hrun]; trivial)
  obtain ⟨hst', hstp⟩ := h.scheduler_stacks (v := fun r => { r with cur := some p }) hst
    (.clearProc p)
  refine h.scheduler_setCpu (p := p) hst rfl rfl (.inr ⟨p, rfl, ?_⟩) rfl (.inr rfl) ?_
  · rw [hf]
    exact hr.holds
  · refine ⟨⟨.clearProc p, by rw [hst']; exact .base _, ?_⟩, .inr ?_, fun _ => ⟨hst', ?_⟩,
      fun he => ?_, fun he => ?_, fun hn => absurd ⟨_, hst', rfl⟩ hn, fun he => ?_⟩
    · rw [Sys.cpu_setCpu_self]
      exact hproc
    · rw [Sys.cpu_setCpu_self]
    · rw [hstp, hf]
      exact hrun.trans hr.own.symm
    · rw [Sys.cpu_setCpu_self] at he
      cases he
    · rw [Sys.cpu_setCpu_self] at he
      cases he
    · rw [Sys.cpu_setCpu_self] at he
      cases he

/-- `c->proc = 0` in `scheduler`, after the process has switched back. -/
theorem SchedInv.scheduler_clearProc (h : SchedInv s)
    (hst : s.stack (s.thread c) = [.scheduler (.clearProc p)]) :
    SchedInv ((s.setStack (s.thread c) [.scheduler (.release p)]).setCpu c
      fun r => { r with proc := none }) := by
  obtain ⟨hcur, ht, -, -⟩ := h.scheduler_top hst
  have hclaim : s.Claims c p := ⟨_, by rw [← ht]; exact hst, rfl⟩
  have hleft := h.cpus.after c p hcur (by rw [← ht]; exact hst)
  obtain ⟨hst', hstp⟩ := h.scheduler_stacks (v := fun r => { r with proc := none }) hst (.release p)
  refine h.scheduler_setCpu (p := p) hst rfl rfl (.inl hcur) rfl (.inl rfl) ?_
  refine ⟨⟨.release p, by rw [hst']; exact .base _, ?_⟩, .inl ?_, fun he => ?_, fun _ he => ?_,
    fun _ he => ?_, fun _ hrun => ?_, fun _ hlive => ?_⟩
  · rw [Sys.cpu_setCpu_self]
    rfl
  · rw [Sys.cpu_setCpu_self]
    exact hcur
  · rw [Sys.cpu_setCpu_self] at he
    exact absurd (hcur.symm.trans he) (by simp)
  · rw [hst'] at he
    rcases he with he | he <;> cases he
  · rw [hst'] at he
    cases he
  · change (s.proc p).state = .running at hrun
    rw [hrun] at hleft
    exact hleft
  · obtain ⟨f, rest, hf, hr⟩ := h.cpus.resume p (h.off_of_claims hcur hclaim) hlive
    exact ⟨f, rest, by rw [hstp, hf], hr⟩

end Scheduler

/-- `sched()` passes its tests: the CPU goes on with its scheduler, which now
answers for the lock of the process. -/
theorem SchedInv.sched (h : SchedInv s) (hst : s.stack (s.thread c) = f :: rest)
    (hcur : (s.cpu c).cur = some p) (hf : f.holds = some p) (hleft : f.own.Left)
    (hfol : Follows f [g]) (hgc : g.child = none) (hfc : f.child = none) (hsees : g.sees = none)
    (hres : f.own.Live → g.Resumes p) :
    SchedInv ((s.setStack (s.thread c) ([g] ++ rest)).setCpu c fun r => { r with cur := none }) := by
  have ht : s.thread c = .proc p := thread_eq_proc.mpr hcur
  have hclaim := h.claims_of_cur hcur
  obtain ⟨hsch, hown⟩ := h.cpus.onProc c p hcur
  have hstate : (s.proc p).state = f.own := by
    rw [hown, ← ht, hst]
    rfl
  have hk : StacksOk (s.setStack (s.thread c) ([g] ++ rest)) := by
    refine .replace h hst (fun _ => rfl) (fun _ => rfl) rfl hfol ?_ ?_ ?_
    · rw [hfc]
      unfold children
      rw [List.filterMap_cons, hgc]
      rfl
    · intro g' hg' q hq
      cases List.mem_singleton.mp hg'
      rw [hgc] at hq
      cases hq
    · intro g' hg' q x hx
      cases List.mem_singleton.mp hg'
      rw [hsees] at hx
      cases hx
  have hthread : ((s.setStack (s.thread c) ([g] ++ rest)).setCpu c
      fun r => { r with cur := none }).thread c = .scheduler c := by
    rw [thread_eq_scheduler, Sys.cpu_setCpu_self]
    exact ⟨rfl, rfl⟩
  have hsch' : ∀ c', (s.setStack (s.thread c) ([g] ++ rest)).stack (.scheduler c') =
      s.stack (.scheduler c') := fun c' => Sys.stack_setStack_of_ne _ (by rw [ht]; simp) _
  have hnoff : ∀ c', (((s.setStack (s.thread c) ([g] ++ rest)).setCpu c
      fun r => { r with cur := none }).cpu c').noff = (s.cpu c').noff := by
    intro c'
    rw [setCpu_noff]
    split
    · rename_i hcc
      rw [hcc]
      rfl
    · rfl
  refine ⟨⟨h.locks.one, fun c' => (hnoff c').trans (h.locks.noff c'), fun c' q => ?_⟩,
    hk.setCpu ?_ _, .concerns h (c := c) (p := p) ?_ ?_⟩
  · show (.proc q, c') ∈ s.locks ↔ _
    rw [h.locks.held]
    by_cases hcc : c' = c
    · rw [hcc, hthread, hst]
      show f.holds = some q ↔ topHolds ((s.setStack (s.thread c) ([g] ++ rest)).stack _) = some q
      rw [hsch', hsch, hf]
      rfl
    · have hth : ((s.setStack (s.thread c) ([g] ++ rest)).setCpu c
          fun r => { r with cur := none }).thread c' = s.thread c' := by
        unfold Sys.thread
        rw [Sys.cpu_setCpu_of_ne _ hcc]
        rfl
      rw [hth]
      show _ ↔ topHolds ((s.setStack (s.thread c) ([g] ++ rest)).stack _) = some q
      rw [Sys.stack_setStack_of_ne _ fun he => hcc (h.thread_inj he)]
  · intro g' hg'
    have hg'' : g' ∈ [g] ++ rest := by
      rw [← Sys.stack_setStack_self s (s.thread c) ([g] ++ rest)]
      exact hg'
    rcases List.mem_append.mp hg'' with hg' | hg'
    · cases List.mem_singleton.mp hg'
      exact hsees
    · cases hs : g'.sees with
      | none => rfl
      | some e =>
          have := (Frame.holds_of_sees (x := e.2) (q := e.1) hs).1
          rw [h.rest_holds hst g' hg'] at this
          cases this
  · refine ⟨fun c' hcc => Sys.cpu_setCpu_of_ne _ hcc _, fun c' _ => hsch' c', fun _ _ => rfl,
      fun r hr => Sys.stack_setStack_of_ne _ (by rw [ht]; simpa using hr) _,
      fun c' hcc hc' => hcc (h.cpus.uniq _ _ _ hc' hclaim),
      fun r hr hc' => hr (h.claims_eq_of_cur hcur hc'), ?_⟩
    rintro r hr ⟨pc, hpc, hcl⟩
    exact hr (h.claims_eq_of_cur hcur ⟨pc, (hsch' c).symm.trans hpc, hcl⟩)
  · have hst' := (hsch' c).trans hsch
    refine ⟨⟨.clearProc p, ?_, ?_⟩, .inl ?_, fun he => ?_, fun _ he => ?_, fun _ _ => ?_,
      fun hn => absurd ⟨_, hst', rfl⟩ hn, fun _ hlive => ?_⟩
    · show SchedStack ((s.setStack (s.thread c) ([g] ++ rest)).stack (.scheduler c)) _
      rw [hst']
      exact .base _
    · obtain ⟨pc, hpc, hproc⟩ := h.cpus.sched c
      rw [hsch] at hpc
      cases hpc
      rw [Sys.cpu_setCpu_self]
      exact hproc
    · rw [Sys.cpu_setCpu_self]
    · rw [Sys.cpu_setCpu_self] at he
      cases he
    · rcases he with he | he <;> cases hst'.symm.trans he
    · show (s.proc p).state.Left
      rw [hstate]
      exact hleft
    · change (s.proc p).state.Live at hlive
      rw [hstate] at hlive
      refine ⟨g, rest, ?_, hres hlive⟩
      show (s.setStack (s.thread c) ([g] ++ rest)).stack (.proc p) = _
      rw [← ht, Sys.stack_setStack_self]
      rfl

end Switch

/-! ## New frames, and locks of other code -/

section Calls

variable {s : Sys m n} {c : Fin m} {f g : Frame n} {rest : List (Frame n)} {q : Fin n} {k : Nat}

/-- The kernel stack of a process being made is reset. -/
theorem SchedInv.resetStack (h : SchedInv s) (hq : (s.proc q).state = .used) :
    SchedInv (s.setStack (.proc q) [.forkret q]) := by
  have hne : ∀ c, s.thread c ≠ .proc q := fun c => h.thread_ne c (.inr hq)
  have hsch : ∀ c, (s.setStack (.proc q) [.forkret q]).stack (.scheduler c) =
      s.stack (.scheduler c) := fun c => Sys.stack_setStack_of_ne _ (by simp) _
  have hmem : ∀ t f, f ∈ (s.setStack (.proc q) [.forkret q]).stack t →
      (t = .proc q ∧ f = .forkret q) ∨ f ∈ s.stack t := by
    intro t f hf
    by_cases ht : t = .proc q
    · subst ht
      rw [Sys.stack_setStack_self] at hf
      exact .inl ⟨rfl, List.mem_singleton.mp hf⟩
    · rw [Sys.stack_setStack_of_ne _ ht] at hf
      exact .inr hf
  have hkids : ∀ t, children ((s.setStack (.proc q) [.forkret q]).stack t) ⊆
      children (s.stack t) := by
    intro t r hr
    obtain ⟨f, hf, hfr⟩ := mem_children.mp hr
    rcases hmem t f hf with ⟨rfl, rfl⟩ | hf
    · cases hfr
    · exact mem_children.mpr ⟨f, hf, hfr⟩
  refine ⟨⟨h.locks.one, h.locks.noff, fun c r => ?_⟩, ⟨fun t f hf => ?_, fun t f hf => ?_,
    fun t f r x hf hx => ?_, fun t f r hf hr => ?_, fun t => ?_, fun t t' r hr hr' => ?_⟩,
    ⟨fun c => ?_, fun c p hc => ?_, fun c p hc hs => ?_, fun c p hc hs => ?_,
      fun c₁ c₂ p h1 h2 => ?_, fun p hp => ?_, fun p hoff hlive => ?_⟩⟩
  · show _ ↔ topHolds ((s.setStack (.proc q) [.forkret q]).stack (s.thread c)) = some r
    rw [Sys.stack_setStack_of_ne _ (hne c)]
    exact h.locks.held c r
  · rcases hmem t f hf with ⟨rfl, rfl⟩ | hf
    · rfl
    · exact h.frames.runsOn t f hf
  · by_cases ht : t = .proc q
    · subst ht
      rw [Sys.stack_setStack_self] at hf
      cases hf
    · rw [Sys.stack_setStack_of_ne _ ht] at hf
      exact h.frames.lower t f hf
  · rcases hmem t f hf with ⟨rfl, rfl⟩ | hf
    · cases hx
    · exact h.frames.sees t f r x hf hx
  · rcases hmem t f hf with ⟨rfl, rfl⟩ | hf
    · cases hr
    · obtain ⟨hused, hctx⟩ := h.frames.used t f r hf hr
      refine ⟨hused, fun hready => ?_⟩
      by_cases hrq : r = q
      · rw [hrq, Sys.stack_setStack_self]
      · rw [Sys.stack_setStack_of_ne _ (by simpa using hrq)]
        exact hctx hready
  · by_cases ht : t = .proc q
    · subst ht
      rw [Sys.stack_setStack_self]
      exact List.nodup_nil
    · rw [Sys.stack_setStack_of_ne _ ht]
      exact h.frames.nodup t
  · exact h.frames.disjoint t t' r (hkids t hr) (hkids t' hr')
  · rw [hsch]
    exact h.cpus.sched c
  · rw [hsch]
    obtain ⟨hst, hown⟩ := h.cpus.onProc c p hc
    refine ⟨hst, ?_⟩
    have hpq : (Thread.proc p : Thread m n) ≠ .proc q := by
      rw [← thread_eq_proc.mpr hc]
      exact hne c
    rw [Sys.stack_setStack_of_ne _ hpq]
    exact hown
  · rw [hsch] at hs
    exact h.cpus.before c p hc hs
  · rw [hsch] at hs
    exact h.cpus.after c p hc hs
  · unfold Sys.Claims at h1 h2
    rw [hsch] at h1 h2
    exact h.cpus.uniq c₁ c₂ p h1 h2
  · refine h.cpus.idle p fun c hc => hp c ?_
    unfold Sys.Claims
    rw [hsch]
    exact hc
  · have hpq : p ≠ q := by
      rintro rfl
      change (s.proc p).state.Live at hlive
      rw [hq] at hlive
      exact hlive
    rw [Sys.stack_setStack_of_ne _ (by simpa using hpq)]
    exact h.cpus.resume p hoff hlive

theorem SchedulerPc.claim_of_holds {pc : SchedulerPc n} (h : pc.holds = none) :
    pc.claim = none := by
  cases pc with
  | acquire i => rfl
  | _ => cases h

/-! ## A new frame -/

/-- The thread of a CPU calls a function. -/
def Sys.push (s : Sys m n) (c : Fin m) (g : Frame n) : Sys m n :=
  s.setStack (s.thread c) (g :: s.stack (s.thread c))

theorem push_self (s : Sys m n) (c : Fin m) (g : Frame n) :
    (s.push c g).stack (s.thread c) = g :: s.stack (s.thread c) := Sys.stack_setStack_self ..

theorem push_of_ne {t : Thread m n} (ht : t ≠ s.thread c) : (s.push c g).stack t = s.stack t :=
  Sys.stack_setStack_of_ne s ht _

theorem mem_push {t : Thread m n} {f : Frame n} (hf : f ∈ (s.push c g).stack t) :
    f = g ∧ t = s.thread c ∨ f ∈ s.stack t := by
  by_cases ht : t = s.thread c
  · subst ht
    rw [push_self] at hf
    rcases List.mem_cons.mp hf with hf | hf
    · exact .inl ⟨hf, rfl⟩
    · exact .inr hf
  · rw [push_of_ne ht] at hf
    exact .inr hf

theorem children_push (hchild : g.child = none) (t : Thread m n) :
    children ((s.push c g).stack t) = children (s.stack t) := by
  by_cases ht : t = s.thread c
  · subst ht
    rw [push_self, children_cons, hchild]
    rfl
  · rw [push_of_ne ht]

theorem LocksOk.push (h : SchedInv s) (htop : topHolds (s.stack (s.thread c)) = none)
    (hg : g.holds = none) : LocksOk (s.push c g) := by
  refine ⟨h.locks.one, h.locks.noff, fun c' q => ?_⟩
  show (.proc q, c') ∈ s.locks ↔ topHolds ((s.push c g).stack (s.thread c')) = some q
  rw [h.locks.held]
  by_cases hcc : c' = c
  · subst hcc
    rw [push_self, htop]
    show _ ↔ g.holds = some q
    rw [hg]
  · rw [push_of_ne fun ht => hcc (h.thread_inj ht)]

theorem StacksOk.push (h : SchedInv s) (htop : topHolds (s.stack (s.thread c)) = none)
    (hg : g.holds = none) (hruns : g.RunsOn (s.thread c)) (hchild : g.child = none) :
    StacksOk (s.push c g) := by
  refine ⟨fun t f hf => ?_, fun t f hf => ?_, fun t f q x hf hx => ?_, fun t f q hf hq => ?_,
    fun t => ?_, fun t t' q hq hq' => ?_⟩
  · rcases mem_push hf with ⟨rfl, rfl⟩ | hf
    · exact hruns
    · exact h.frames.runsOn t f hf
  · by_cases ht : t = s.thread c
    · subst ht
      rw [push_self, List.tail_cons] at hf
      have hlow := h.frames.lower (s.thread c)
      cases hst : s.stack (s.thread c) with
      | nil =>
          rw [hst] at hf
          cases hf
      | cons f' rest =>
          rw [hst] at hf htop hlow
          rcases List.mem_cons.mp hf with rfl | hf
          · exact htop
          · exact hlow f hf
    · rw [push_of_ne ht] at hf
      exact h.frames.lower t f hf
  · rcases mem_push hf with ⟨rfl, rfl⟩ | hf
    · rw [(Frame.holds_of_sees hx).1] at hg
      cases hg
    · exact h.frames.sees t f q x hf hx
  · rcases mem_push hf with ⟨rfl, rfl⟩ | hf
    · rw [hchild] at hq
      cases hq
    · obtain ⟨hused, hctx⟩ := h.frames.used t f q hf hq
      refine ⟨hused, fun hready => ?_⟩
      rw [push_of_ne (h.thread_ne c (.inr hused)).symm]
      exact hctx hready
  · rw [children_push hchild]
    exact h.frames.nodup t
  · rw [children_push hchild] at hq hq'
    exact h.frames.disjoint t t' q hq hq'

section Scheduler

variable (htop : topHolds (s.stack (s.thread c)) = none)
  (hwake : (s.cpu c).cur = none → ∃ chan pc, g = .wakeup chan pc)

include hwake

theorem push_ne_scheduler {c' : Fin m} {pc : SchedulerPc n}
    (hs : (s.push c g).stack (.scheduler c') = [.scheduler pc]) :
    Thread.scheduler c' ≠ s.thread c := by
  intro ht
  rw [ht, push_self] at hs
  obtain ⟨chan, wpc, rfl⟩ := hwake (thread_eq_scheduler.mp ht.symm).1
  cases hs

include htop

/-- A scheduler that is interrupted claims nothing. -/
theorem claims_push (c' : Fin m) (p : Fin n) : (s.push c g).Claims c' p ↔ s.Claims c' p := by
  constructor
  · rintro ⟨pc, hpc, hcl⟩
    rw [push_of_ne (push_ne_scheduler hwake hpc)] at hpc
    exact ⟨pc, hpc, hcl⟩
  · rintro ⟨pc, hpc, hcl⟩
    refine ⟨pc, (push_of_ne fun ht => ?_).trans hpc, hcl⟩
    rw [← ht, hpc] at htop
    rw [SchedulerPc.claim_of_holds htop] at hcl
    cases hcl

theorem SchedStack.push {c' : Fin m} {pc : SchedulerPc n}
    (hpc : SchedStack (s.stack (.scheduler c')) pc) :
    SchedStack ((s.push c g).stack (.scheduler c')) pc := by
  by_cases ht : Thread.scheduler c' = s.thread c
  · obtain ⟨chan, wpc, rfl⟩ := hwake (thread_eq_scheduler.mp ht.symm).1
    rw [ht, push_self, ← ht]
    refine .intr chan wpc hpc ?_
    rw [← ht] at htop
    cases hpc' : s.stack (.scheduler c') with
    | nil =>
        rw [hpc'] at hpc
        cases hpc
    | cons f rest =>
        rw [hpc'] at hpc htop
        cases hpc with
        | base => exact htop
        | intr _ _ _ hh => exact hh
  · rw [push_of_ne ht]
    exact hpc

theorem CpusOk.push (h : SchedInv s) (hg : g.holds = none) : CpusOk (s.push c g) := by
  have hsched : ∀ c' pc, (s.push c g).stack (.scheduler c') = [.scheduler pc] →
      s.stack (.scheduler c') = [.scheduler pc] := fun c' pc hs =>
    (push_of_ne (push_ne_scheduler hwake hs)).symm.trans hs
  refine ⟨fun c' => ?_, fun c' p hc => ?_, fun c' p hc hs => ?_, fun c' p hc hs => ?_,
    fun c₁ c₂ p h1 h2 => ?_, fun p hp => ?_, fun p hoff hlive => ?_⟩
  · obtain ⟨pc, hpc, hproc⟩ := h.cpus.sched c'
    exact ⟨pc, hpc.push htop hwake, hproc⟩
  · obtain ⟨hst, hown⟩ := h.cpus.onProc c' p hc
    have hne : Thread.scheduler c' ≠ s.thread c := by
      intro ht
      obtain ⟨hn, rfl⟩ := thread_eq_scheduler.mp ht.symm
      exact absurd (hn.symm.trans hc) (by simp)
    refine ⟨by rw [push_of_ne hne]; exact hst, ?_⟩
    show (s.proc p).state = _
    rw [hown]
    by_cases ht : Thread.proc p = s.thread c
    · rw [ht, push_self]
      show topOwn (s.stack (s.thread c)) = g.own
      rw [Frame.own_of_holds hg]
      cases hst : s.stack (s.thread c) with
      | nil => rfl
      | cons f rest =>
          rw [hst] at htop
          exact Frame.own_of_holds htop
    · rw [push_of_ne ht]
  · exact h.cpus.before c' p hc (hs.imp (hsched c' _) (hsched c' _))
  · exact h.cpus.after c' p hc (hsched c' _ hs)
  · exact h.cpus.uniq c₁ c₂ p ((claims_push htop hwake _ _).mp h1)
      ((claims_push htop hwake _ _).mp h2)
  · exact h.cpus.idle p fun c' hc => hp c' ((claims_push htop hwake _ _).mpr hc)
  · have hne : Thread.proc p ≠ s.thread c := fun ht => hoff c (thread_eq_proc.mp ht.symm)
    rw [push_of_ne hne]
    exact h.cpus.resume p hoff hlive

end Scheduler

/-- A call or an interrupt pushes a frame that holds no lock of a process. -/
theorem SchedInv.push (h : SchedInv s) (htop : topHolds (s.stack (s.thread c)) = none)
    (hg : g.holds = none) (hruns : g.RunsOn (s.thread c)) (hchild : g.child = none)
    (hwake : (s.cpu c).cur = none → ∃ chan pc, g = .wakeup chan pc) : SchedInv (s.push c g) :=
  ⟨.push h htop hg, .push h htop hg hruns hchild, .push htop hwake h hg⟩

/-- Only the locks of other code change. -/
theorem SchedInv.setLocks (h : SchedInv s) {v : Cpu n → Cpu n} (hcur : ∀ r, (v r).cur = r.cur)
    (hproc : ∀ r, (v r).proc = r.proc) {locks : Spin.Held (Lock n) (Fin m)} (hone : locks.Ok)
    (hnoff : ∀ c', ((s.setCpu c v).cpu c').noff = locks.count c')
    (hheld : ∀ q c', (.proc q, c') ∈ locks ↔ (.proc q, c') ∈ s.locks) :
    SchedInv { s.setCpu c v with locks := locks } := by
  have hcur' : ∀ c', ((s.setCpu c v).cpu c').cur = (s.cpu c').cur := fun c' =>
    (setCpu_same s c c' hcur hproc).1
  have hproc' : ∀ c', ((s.setCpu c v).cpu c').proc = (s.cpu c').proc := fun c' =>
    (setCpu_same s c c' hcur hproc).2
  have hthread : ∀ c', ({ s.setCpu c v with locks := locks } : Sys m n).thread c' = s.thread c' :=
    thread_congr hcur'
  refine ⟨⟨hone, hnoff, fun c' q => ?_⟩, ⟨h.frames.runsOn, h.frames.lower, fun t f q x hf hx => ?_,
    h.frames.used, h.frames.nodup, h.frames.disjoint⟩, ⟨fun c' => ?_, fun c' p hc => ?_,
    fun c' p hc => ?_, fun c' p hc => ?_, h.cpus.uniq, h.cpus.idle, fun p hoff => ?_⟩⟩
  · rw [hthread]
    exact (hheld q c').trans (h.locks.held c' q)
  · obtain ⟨hst, c', hc'⟩ := h.frames.sees t f q x hf hx
    exact ⟨hst, c', (hthread c').trans hc'⟩
  · obtain ⟨pc, hpc, hp⟩ := h.cpus.sched c'
    exact ⟨pc, hpc, (hproc' c').trans hp⟩
  · exact h.cpus.onProc c' p ((hcur' c').symm.trans hc)
  · exact h.cpus.before c' p ((hcur' c').symm.trans hc)
  · exact h.cpus.after c' p ((hcur' c').symm.trans hc)
  · exact h.cpus.resume p fun c' hc => hoff c' ((hcur' c').trans hc)

theorem SchedInv.acquireOther (h : SchedInv s) {s' : Sys m n}
    (hs' : s.acquire c (.other k) id = some s') : SchedInv s' := by
  unfold Sys.acquire at hs'
  split at hs'
  · cases hs'
    exact h.halt _
  · split at hs'
    · rename_i hfree
      cases hs'
      refine h.setLocks (c := c) (v := fun r => { r with noff := r.noff + 1 }) (fun _ => rfl)
        (fun _ => rfl) (h.locks.one.acquire hfree c) (fun c' => ?_) fun q c' => by simp
      rw [setCpu_noff, Spin.Held.count_acquire, ← h.locks.noff c']
      by_cases hc : c' = c
      · subst hc
        simp
      · simp [hc]
    · cases hs'

theorem SchedInv.releaseOther (h : SchedInv s) : SchedInv (s.release c (.other k) id) := by
  unfold Sys.release
  split
  · rename_i hmem
    refine h.setLocks (c := c) (v := fun r => { r with noff := r.noff - 1 }) (fun _ => rfl)
      (fun _ => rfl) (h.locks.one.release (.other k, c)) (fun c' => ?_)
      fun q c' => by rw [h.locks.one.mem_release hmem]; simp
    have hcount := Spin.Held.count_release hmem c'
    rw [← h.locks.noff c'] at hcount
    rw [setCpu_noff]
    by_cases hc : c' = c
    · subst hc
      simp only [if_true] at hcount ⊢
      omega
    · simp only [if_neg hc] at hcount ⊢
      exact hcount
  · exact h.halt _

end Calls

end Xv6
