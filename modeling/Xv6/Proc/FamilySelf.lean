import Xv6.Proc.Family

/-!
# A step of `exit`, `wait` or `fork`

A step is calm if it changes no parent, makes no zombie and lets no process begin
to sleep in `wait`.  All steps but five are calm, and these five are taken with
`wait_lock`.  The process that executes an instruction moves on in `exit`, `wait`
or `fork` and knows what it should know there (`Family.kin_self`).
-/

namespace Xv6

variable {m n i : Nat} {s s' : Sys m n} {c : Fin m} {ok : Bool} {f g : Frame n}
  {rest : List (Frame n)} {p q r : Fin n} {b : Bool} {status : Int} {wpc : WakeupPc n}

/-! ## What the frames of a process say -/

theorem Frame.Apart.leads (h : f.Apart) (hl : f.Leads g) : g.Apart := by
  cases hl with
  | sleep => exact h
  | exit => exact h
  | wait => exact h
  | waitSleep => exact h.elim
  | fork => exact h
  | _ => trivial

theorem Frame.Intr.apart (h : f.Intr) : f.Apart := by
  cases f with
  | yield => trivial
  | wakeup => trivial
  | _ => exact h.elim

theorem Kin.exit_top {pc : ExitPc} (h : Kin s p (.exit q status pc :: rest) b) :
    rest = [] ∧ b = pc.locked ∧ p ≠ s.initproc ∧ s.ExitKnows p status pc := by
  cases h with
  | apart hap => exact (hap _ List.mem_cons_self).elim
  | intr hf => exact hf.elim
  | exit _ hp hk => exact ⟨rfl, rfl, hp, hk⟩

theorem Kin.wait_top {pc : WaitPc n} (h : Kin s p (.wait q pc :: rest) b) :
    rest = [] ∧ b = pc.locked ∧ s.WaitKnows p pc := by
  cases h with
  | apart hap => exact (hap _ List.mem_cons_self).elim
  | intr hf => exact hf.elim
  | wait _ hk => exact ⟨rfl, rfl, hk⟩

theorem Kin.fork_top {pc : ForkPc n} (h : Kin s p (.fork q pc :: rest) b) :
    rest = [] ∧ b = pc.locked ∧ s.ForkKnows pc := by
  cases h with
  | apart hap => exact (hap _ List.mem_cons_self).elim
  | intr hf => exact hf.elim
  | fork _ hk => exact ⟨rfl, rfl, hk⟩

/-- A process that sleeps in `wait` sleeps with `wait_lock`. -/
theorem Kin.sleep_top {chan : Chan n} {lk : Lock n} {pc : SleepPc} {wpc : WaitPc n}
    (h : Kin s p (.sleep q chan lk pc :: rest) b) (hw : .wait r wpc ∈ rest) :
    b = pc.locked ∧ (pc.locked = true → s.Clean p n) := by
  cases h with
  | apart hap => exact (hap _ (List.mem_cons_of_mem _ hw)).elim
  | intr hf => exact hf.elim
  | sleep _ hk => exact ⟨rfl, hk⟩

/-- An `exit` that wakes `init` up. -/
theorem Kin.waking_top {chan : Chan n}
    (h : Kin s p [.wakeup chan wpc, .exit q status (.reparent i)] b) :
    b = true ∧ s.WakeKnows p chan wpc (.reparent i) := by
  cases h with
  | apart hap => exact (hap (.exit q status (.reparent i)) (by simp)).elim
  | intr _ hk => cases hk.exit_top.2.1
  | waking _ hk => exact ⟨rfl, hk⟩

theorem Family.kin_of_cur (h : Family s) (hp : (s.cpu c).cur = some p) :
    ∃ b, Kin s p (s.stack (s.thread c)) b ∧ (b = true ↔ (.wait, c) ∈ s.locks) := by
  obtain ⟨b, hk, hb⟩ := h.kin p
  refine ⟨b, by rw [stack_of_cur hp]; exact hk, hb.trans ⟨?_, fun hm => ⟨c, hp, hm⟩⟩⟩
  rintro ⟨c', hc', hm⟩
  cases h.base.cpus.uniq _ _ _ (h.base.claims_of_cur hc') (h.base.claims_of_cur hp)
  exact hm

/-! ## Calm steps -/

/-- No parent changes, no process becomes a zombie and no process begins to sleep
in `wait`. -/
structure Calm (s s' : Sys m n) : Prop where
  initproc : s'.initproc = s.initproc
  parent : ∀ q, (s'.proc q).parent = (s.proc q).parent
  zombie : ∀ q, (s'.proc q).state = .zombie → (s.proc q).state = .zombie
  naps : ∀ r, s'.Naps r → s.Naps r

theorem Calm.swept (hc : Calm s s') (h : s.Swept p i) : s'.Swept p i := by
  intro q hq
  rw [hc.parent]
  exact h q hq

theorem Calm.clean (hc : Calm s s') (h : s.Clean p i) : s'.Clean p i := by
  intro q hq hpar hz
  rw [hc.parent] at hpar
  exact h q hq hpar (hc.zombie q hz)

theorem Calm.alerted (hc : Calm s s') (h : s.Alerted p i) : s'.Alerted p i := by
  intro r hpar hr hn
  rw [hc.parent] at hpar
  exact h r hpar hr (hc.naps r hn)

theorem Calm.exitKnows (hc : Calm s s') {pc : ExitPc}
    (hx : pc = .setState → (s'.proc p).xstate = (s.proc p).xstate) (h : s.ExitKnows p status pc) :
    s'.ExitKnows p status pc := by
  cases pc with
  | reparent i => exact hc.swept h
  | wakeupParent => exact hc.swept h
  | acquire => exact ⟨hc.swept h.1, hc.alerted h.2⟩
  | setXstate => exact ⟨hc.swept h.1, hc.alerted h.2⟩
  | setState => exact ⟨hc.swept h.1, hc.alerted h.2.1, (hx rfl).trans h.2.2⟩
  | _ => trivial

theorem Calm.wakeKnows (hc : Calm s s') {chan : Chan n} {pc : ExitPc}
    (h : s.WakeKnows p chan wpc pc) : s'.WakeKnows p chan wpc pc := by
  cases pc with
  | reparent i =>
      refine ⟨by rw [hc.initproc]; exact h.1, hc.swept h.2.1, ?_⟩
      rw [hc.initproc]
      exact fun hi hn => h.2.2 hi (hc.naps _ hn)
  | acquire => exact ⟨by rw [hc.parent]; exact h.1, hc.swept h.2.1, hc.alerted h.2.2⟩
  | _ => exact h.elim

theorem Calm.waitKnows (hc : Calm s s') {pc : WaitPc n} (h : s.WaitKnows p pc) :
    s'.WaitKnows p pc := by
  cases pc with
  | scan i havekids => exact hc.clean h
  | acquire pp => exact ⟨hc.clean h.1, (hc.parent pp).trans h.2⟩
  | test pp => exact ⟨hc.clean h.1, (hc.parent pp).trans h.2⟩
  | releaseNext pp => exact hc.clean h
  | copyout pp => exact (hc.parent pp).trans h
  | freeFields pp => exact (hc.parent pp).trans h
  | freeState pp => exact (hc.parent pp).trans h
  | killedAcquire => exact hc.clean h
  | killedTest => exact hc.clean h
  | killedRelease k => exact hc.clean h
  | sleep => exact hc.clean h
  | _ => trivial

theorem Calm.forkKnows (hc : Calm s s') {pc : ForkPc n} (h : s.ForkKnows pc) : s'.ForkKnows pc := by
  cases pc with
  | acquire i => trivial
  | test np => trivial
  | releaseNext np => trivial
  | releaseLast np => trivial
  | _ => simpa only [Sys.ForkKnows, hc.parent] using h

/-- What a process knows is not changed by a step of another: the process has
`wait_lock` and the step is calm, or the process knows only about its own child. -/
theorem Kin.mono {st : List (Frame n)} (h : Kin s p st b) (hinit : s'.initproc = s.initproc)
    (hcalm : b = true → Calm s s')
    (hx : ∀ status, st = [.exit p status .setState] → (s'.proc p).xstate = (s.proc p).xstate)
    (hfork : ∀ pc, .fork p pc ∈ st → s.ForkKnows pc → s'.ForkKnows pc) : Kin s' p st b := by
  induction h with
  | apart hap => exact .apart hap
  | @intr f st hf hk ih =>
      refine .intr hf (ih nofun ?_ fun pc hm => hfork pc (List.mem_cons_of_mem _ hm))
      rintro status rfl
      cases hk with
      | apart hap => exact (hap _ List.mem_cons_self).elim
      | intr hf' => exact hf'.elim
  | @exit status pc hp hk =>
      refine .exit pc (by rw [hinit]; exact hp) ?_
      cases hl : pc.locked with
      | false => cases pc <;> trivial
      | true => exact (hcalm hl).exitKnows (fun hpc => hx status (by rw [hpc])) hk
  | waking hp hk => exact .waking (by rw [hinit]; exact hp) ((hcalm rfl).wakeKnows hk)
  | wait pc hk =>
      refine .wait pc ?_
      cases hl : pc.locked with
      | false => cases pc <;> trivial
      | true => exact (hcalm hl).waitKnows hk
  | sleep pc hk => exact .sleep pc fun hl => (hcalm hl).clean (hk hl)
  | fork pc hk => exact .fork pc (hfork pc (List.mem_singleton.mpr rfl) hk)

/-! ## Which steps are calm -/

theorem Family.exit_top (h : Family s) {pc : ExitPc}
    (hst : s.stack (s.thread c) = .exit p status pc :: rest) :
    (s.cpu c).cur = some p ∧ rest = [] ∧ (pc.locked = true ↔ (.wait, c) ∈ s.locks) ∧
      p ≠ s.initproc ∧ s.ExitKnows p status pc := by
  have hcur : (s.cpu c).cur = some p := h.base.cur_of_runsOn hst fun _ ht => ht
  obtain ⟨b, hk, hb⟩ := h.kin_of_cur hcur
  rw [hst] at hk
  obtain ⟨hr, rfl, hp, hknows⟩ := hk.exit_top
  exact ⟨hcur, hr, hb, hp, hknows⟩

theorem Family.wait_top (h : Family s) {pc : WaitPc n}
    (hst : s.stack (s.thread c) = .wait p pc :: rest) :
    (s.cpu c).cur = some p ∧ rest = [] ∧ (pc.locked = true ↔ (.wait, c) ∈ s.locks) ∧
      s.WaitKnows p pc := by
  have hcur : (s.cpu c).cur = some p := h.base.cur_of_runsOn hst fun _ ht => ht
  obtain ⟨b, hk, hb⟩ := h.kin_of_cur hcur
  rw [hst] at hk
  obtain ⟨hr, rfl, hknows⟩ := hk.wait_top
  exact ⟨hcur, hr, hb, hknows⟩

theorem Family.fork_top (h : Family s) {pc : ForkPc n}
    (hst : s.stack (s.thread c) = .fork p pc :: rest) :
    (s.cpu c).cur = some p ∧ rest = [] ∧ (pc.locked = true ↔ (.wait, c) ∈ s.locks) ∧
      s.ForkKnows pc := by
  have hcur : (s.cpu c).cur = some p := h.base.cur_of_runsOn hst fun _ ht => ht
  obtain ⟨b, hk, hb⟩ := h.kin_of_cur hcur
  rw [hst] at hk
  obtain ⟨hr, rfl, hknows⟩ := hk.fork_top
  exact ⟨hcur, hr, hb, hknows⟩

/-- The frames whose step is not calm. -/
def Frame.Stirs : Frame n → Prop
  | .exit _ _ (.reparent _) | .exit _ _ .setState | .wait _ (.freeFields _)
  | .fork _ (.setParent _) | .sleep _ _ .wait .releaseLk => True
  | _ => False

section Step

variable (h : Family s) (hst : s.stack (s.thread c) = f :: rest)
  (hd : Does s f (code s c ok f)) (he : Effects s s' c (s.thread c) rest (code s c ok f))

include h hst hd he

theorem Family.inWait_step (hr : s'.InWait r) : s.InWait r := by
  obtain ⟨pc, hpc⟩ := hr
  by_cases hcur : (s.cpu c).cur = some r
  · have hself := h.base.self_stack hst hd he
    rw [thread_eq_proc.mpr hcur] at hself
    rw [stack_of_cur hcur] at hst
    rw [hself] at hpc
    rcases List.mem_append.mp hpc with hm | hm
    · have hl := hd.leads _ hm
      cases hl with
      | wait p pc₀ => exact ⟨pc₀, by rw [hst]; exact List.mem_cons_self⟩
    · exact ⟨pc, by rw [hst]; exact List.mem_cons_of_mem _ hm⟩
  · rcases h.base.other_stack hst hd he hcur with hsame | ⟨-, hfork⟩
    · exact ⟨pc, by rw [← hsame]; exact hpc⟩
    · rw [hfork] at hpc
      simp at hpc

/-- A process begins to sleep in `wait` when it gives up `wait_lock`, and then it
has no zombie children. -/
theorem Family.naps_step (hr : s'.Naps r) :
    s.Naps r ∨ ((s.cpu c).cur = some r ∧ (.wait, c) ∈ s.locks ∧ f.Stirs ∧ s.Clean r n ∧
      ∃ chan lk, f = .sleep r chan lk .releaseLk) := by
  have hin := h.inWait_step hst hd he hr.1
  rcases h.base.dozes_step h.chanSet hst hd he hr.2 with hdz | ⟨hcur, lk, rfl⟩
  · exact .inl ⟨hin, hdz⟩
  · obtain ⟨pc, hpc⟩ := hin
    obtain ⟨b, hk, hb⟩ := h.kin_of_cur hcur
    rw [← stack_of_cur hcur, hst] at hpc
    rw [hst] at hk
    rcases List.mem_cons.mp hpc with hpc | hpc
    · cases hpc
    · obtain ⟨rfl, hclean⟩ := hk.sleep_top hpc
      refine .inr ⟨hcur, hb.mp rfl, ?_, hclean rfl, _, _, rfl⟩
      cases hk with
      | sleep => trivial

theorem Family.calm_of (hinit : s'.initproc = s.initproc) (hf : ¬ f.Stirs) : Calm s s' := by
  refine ⟨hinit, fun q => ?_, fun q hz => ?_, fun r hr => ?_⟩
  · cases h.writes_step hst he q with
    | keep _ hp => exact hp
    | live _ _ hp => exact hp
    | unborn _ _ _ _ _ hp hp' => exact hp'.trans hp.symm
    | setParent p hfr => exact absurd (by rw [hfr]; trivial) hf
    | reparent p status hfr => exact absurd (by rw [hfr]; trivial) hf
    | freeFields p hfr => exact absurd (by rw [hfr]; trivial) hf
    | setRunnable _ _ hy => rw [hy]
    | setXstate _ _ hy => rw [hy]
    | exit _ _ hy => rw [hy]
    | freeState _ _ hy => rw [hy]
  · cases h.writes_step hst he q with
    | keep hs => exact hs.symm.trans hz
    | live _ hl => exact absurd hz hl.ne_zombie
    | unborn _ _ _ _ hb => exact absurd (by rw [hz]; trivial) hb
    | exit status hfr => exact absurd (by rw [hfr]; trivial) hf
    | setParent _ _ hy => rw [hy] at hz; exact hz
    | reparent _ _ _ _ hy => rw [hy] at hz; exact hz
    | freeFields _ _ hy => rw [hy] at hz; exact hz
    | setXstate _ _ hy => rw [hy] at hz; exact hz
    | setRunnable _ _ hy => rw [hy] at hz; cases hz
    | freeState _ _ hy => rw [hy] at hz; cases hz
  · rcases h.naps_step hst hd he hr with hr | ⟨-, -, hf', -⟩
    · exact hr
    · exact absurd hf' hf

omit hd he in
/-- Only the holder of `wait_lock` takes a step that is not calm. -/
theorem Family.locked_of_stirs (hf : f.Stirs) (hp : (s.cpu c).cur = some p) :
    (.wait, c) ∈ s.locks := by
  cases f with
  | exit p status pc =>
      refine (h.exit_top hst).2.2.1.mp ?_
      cases pc <;> first | rfl | exact hf.elim
  | wait p pc =>
      refine (h.wait_top hst).2.2.1.mp ?_
      cases pc <;> first | rfl | exact hf.elim
  | fork p pc =>
      refine (h.fork_top hst).2.2.1.mp ?_
      cases pc <;> first | rfl | exact hf.elim
  | sleep q chan lk pc =>
      obtain ⟨b, hk, hb⟩ := h.kin_of_cur hp
      rw [hst] at hk
      cases hk with
      | apart hap =>
          have hlk := hap _ List.mem_cons_self
          cases lk with
          | wait => exact absurd rfl hlk
          | _ => exact hf.elim
      | intr hi => exact hi.elim
      | sleep =>
          cases pc with
          | releaseLk => exact hb.mp rfl
          | _ => exact hf.elim
  | _ => exact hf.elim

theorem Family.calm_of_unlocked (hinit : s'.initproc = s.initproc) (hno : (.wait, c) ∉ s.locks) :
    Calm s s' := by
  refine h.calm_of hst hd he hinit fun hf => ?_
  cases hcur : (s.cpu c).cur with
  | some p => exact hno (h.locked_of_stirs hst hf hcur)
  | none =>
      have hruns := h.base.frames.runsOn _ f (mem_top hst)
      rw [thread_eq_scheduler.mpr ⟨hcur, rfl⟩] at hruns
      cases f with
      | exit => cases hruns
      | wait => cases hruns
      | fork => cases hruns
      | sleep => cases hruns.1
      | _ => exact hf

end Step

/-! ## The process that takes the step -/

/-- A frame outside `exit`, `wait` and `fork` does not touch `wait_lock`. -/
theorem Frame.Apart.waits {f : Frame n} (hf : f.Apart) (s : Sys m n) (c : Fin m) (ok b : Bool) :
    (code s c ok f).waits b = b := by
  cases f with
  | scheduler pc =>
      cases pc with
      | acquire i => simp only [code, schedulerCode]; split <;> rfl
      | test p => simp only [code, schedulerCode]; split <;> rfl
      | _ => rfl
  | forkret p => rfl
  | yield p pc => cases pc <;> rfl
  | sleep p chan lk pc =>
      cases lk with
      | wait => exact absurd rfl hf
      | _ => cases pc <;> rfl
  | wakeup chan pc =>
      cases pc with
      | next i =>
          simp only [code, wakeupCode]
          split
          · split <;> rfl
          · rfl
      | test p => simp only [code, wakeupCode]; split <;> rfl
      | release p => rfl
  | kill pid pc =>
      cases pc with
      | acquire i => simp only [code, killCode]; split <;> rfl
      | test p => simp only [code, killCode]; split <;> rfl
      | setState p => simp only [code, killCode]; split <;> rfl
      | release p found => rfl
  | setkilled r pc => cases pc <;> rfl
  | killed r pc => cases pc <;> rfl
  | _ => exact hf.elim

/-- The frames that call `sched`. -/
theorem code_sched {next : List (Frame n)} (hi : code s c ok f = .sched next) :
    (∃ p, f = .yield p .sched) ∨ (∃ p chan lk, f = .sleep p chan lk .sched) ∨
      ∃ p status, f = .exit p status .sched := by
  cases f with
  | scheduler pc =>
      cases pc with
      | acquire i => simp only [code, schedulerCode] at hi; split at hi <;> cases hi
      | test p => simp only [code, schedulerCode] at hi; split at hi <;> cases hi
      | _ => cases hi
  | forkret p => cases hi
  | yield p pc => cases pc <;> first | exact .inl ⟨p, rfl⟩ | cases hi
  | sleep p chan lk pc => cases pc <;> first | exact .inr (.inl ⟨p, chan, lk, rfl⟩) | cases hi
  | wakeup chan pc =>
      cases pc with
      | next i =>
          simp only [code, wakeupCode] at hi
          split at hi
          · split at hi <;> cases hi
          · cases hi
      | test p => simp only [code, wakeupCode] at hi; split at hi <;> cases hi
      | release p => cases hi
  | kill pid pc =>
      cases pc with
      | acquire i => simp only [code, killCode] at hi; split at hi <;> cases hi
      | test p => simp only [code, killCode] at hi; split at hi <;> cases hi
      | setState p => simp only [code, killCode] at hi; split at hi <;> cases hi
      | release p found => cases hi
  | setkilled r pc => cases pc <;> cases hi
  | killed r pc => cases pc <;> cases hi
  | exit p status pc =>
      cases pc with
      | sched => exact .inr (.inr ⟨p, status, rfl⟩)
      | reparent i =>
          simp only [code, exitCode] at hi
          split at hi
          · split at hi <;> cases hi
          · cases hi
      | _ => cases hi
  | wait p pc =>
      cases pc with
      | scan i havekids =>
          simp only [code, waitCode] at hi
          split at hi <;> split at hi <;> cases hi
      | test pp => simp only [code, waitCode] at hi; split at hi <;> cases hi
      | copyout pp => simp only [code, waitCode] at hi; split at hi <;> cases hi
      | _ => cases hi
  | fork p pc =>
      cases pc with
      | acquire i => simp only [code, forkCode] at hi; split at hi <;> cases hi
      | test np => simp only [code, forkCode] at hi; split at hi <;> cases hi
      | alloc np => simp only [code, forkCode] at hi; split at hi <;> cases hi
      | copy np => simp only [code, forkCode] at hi; split at hi <;> cases hi
      | _ => cases hi

/-- A process with `wait_lock` stays on its CPU. -/
theorem Kin.cur_self (hk : Kin s p (f :: rest) b) (hd : Does s f (code s c ok f))
    (hb : (code s c ok f).waits b = true) : (code s c ok f).cur (some p) = some p := by
  generalize hi : code s c ok f = i at hd hb
  cases hd with
  | sched =>
      change b = true at hb
      rcases code_sched hi with ⟨p', rfl⟩ | ⟨p', chan, lk, rfl⟩ | ⟨p', status, rfl⟩ <;>
        cases hk <;> cases hb
  | swtch _ hf =>
      change b = true at hb
      subst hf
      cases hk <;> cases hb
  | @plain i _ hp =>
      cases i with
      | sched => exact hp.elim
      | swtch => exact hp.elim
      | _ => rfl
  | _ => rfl

section Self

/-- A step of `exit`. -/
theorem Family.exit_self (h : Family s) {status : Int} {pc : ExitPc}
    (hst : s.stack (s.thread c) = .exit p status pc :: rest)
    (hd : Does s (.exit p status pc) (code s c ok (.exit p status pc)))
    (he : Effects s s' c (s.thread c) rest (code s c ok (.exit p status pc)))
    (hinit : s'.initproc = s.initproc) :
    Kin s' p ((exitCode s p status pc).next ++ rest) ((exitCode s p status pc).waits pc.locked) := by
  obtain ⟨hcur, rfl, -, hne, hk⟩ := h.exit_top hst
  have hne' : p ≠ s'.initproc := by rw [hinit]; exact hne
  have hcalm := h.calm_of hst hd he hinit
  cases pc with
  | acquireWait => exact .exit _ hne' fun q hq => absurd hq (Nat.not_lt_zero _)
  | reparent i =>
      by_cases hi : i < n
      · by_cases hpar : (s.proc ⟨i, hi⟩).parent = some p
        · have hcode : exitCode s p status (.reparent i) = .store ⟨i, hi⟩
              (fun q => { q with parent := some s.initproc })
              [.wakeup (.proc s.initproc) (.next 0), .exit p status (.reparent (i + 1))] := by
            simp only [exitCode, dif_pos hi, if_pos hpar]
          rw [hcode]
          refine .waking hne' ⟨by rw [hinit], fun q hq => ?_, fun hlt => absurd hlt (Nat.not_lt_zero _)⟩
          have hsto := he.store ⟨i, hi⟩ _ _ hcode
          by_cases hqi : q = ⟨i, hi⟩
          · rw [hqi, hsto]
            simpa using hne.symm
          · rw [he.proc q fun u next hu => hqi ?_]
            · refine hk q (Nat.lt_of_le_of_ne (Nat.lt_succ_iff.mp hq) fun hq' => hqi (Fin.ext hq'))
            · change exitCode s p status (.reparent i) = _ at hu
              rw [hcode] at hu
              cases hu
              rfl
        · have hcode : exitCode s p status (.reparent i) =
              .goto [.exit p status (.reparent (i + 1))] := by
            simp only [exitCode, dif_pos hi, if_neg hpar]
          rw [hcode]
          refine .exit _ hne' fun q hq => ?_
          rw [he.proc q fun u next hu => by rw [code, hcode] at hu; cases hu]
          rcases Nat.lt_succ_iff_lt_or_eq.mp hq with hlt | heq
          · exact hk q hlt
          · rw [show q = ⟨i, hi⟩ from Fin.ext heq]
            exact hpar
      · have hcode : exitCode s p status (.reparent i) = .goto [.exit p status .wakeupParent] := by
          simp only [exitCode, dif_neg hi]
        rw [hcode]
        refine .exit _ hne' fun q hq => ?_
        rw [he.proc q fun u next hu => by rw [code, hcode] at hu; cases hu]
        exact hk q (Nat.lt_of_lt_of_le hq (Nat.le_of_not_lt hi))
  | wakeupParent =>
      refine .waking hne' ⟨?_, (hcalm id).swept hk, fun r _ hr => absurd hr (Nat.not_lt_zero _)⟩
      rw [(hcalm id).parent]
  | acquire => exact .exit _ hne' ⟨(hcalm id).swept hk.1, (hcalm id).alerted hk.2⟩
  | setXstate =>
      refine .exit _ hne' ⟨(hcalm id).swept hk.1, (hcalm id).alerted hk.2, ?_⟩
      rw [he.store p _ _ rfl]
  | setState => exact .exit _ hne' trivial
  | releaseWait => exact .exit .sched hne' trivial
  | sched => exact .exit .zombie hne' trivial
  | zombie => exact .apart (by simp [exitCode, Instr.next])

/-- A step of `wait`. -/
theorem Family.wait_self (h : Family s) {pc : WaitPc n}
    (hst : s.stack (s.thread c) = .wait p pc :: rest)
    (hd : Does s (.wait p pc) (code s c ok (.wait p pc)))
    (he : Effects s s' c (s.thread c) rest (code s c ok (.wait p pc)))
    (hinit : s'.initproc = s.initproc) :
    Kin s' p ((waitCode s ok p pc).next ++ rest) ((waitCode s ok p pc).waits pc.locked) := by
  obtain ⟨hcur, rfl, -, hk⟩ := h.wait_top hst
  have hcalm := h.calm_of hst hd he hinit
  cases pc with
  | acquireWait => exact .wait (.scan 0 false) fun q hq => absurd hq (Nat.not_lt_zero _)
  | scan i havekids =>
      have hclean : s'.Clean p i := (hcalm id).clean hk
      by_cases hi : i < n
      · by_cases hpar : (s.proc ⟨i, hi⟩).parent = some p
        · simp only [waitCode, dif_pos hi, if_pos hpar]
          exact .wait (.acquire ⟨i, hi⟩) ⟨hclean, ((hcalm id).parent _).trans hpar⟩
        · simp only [waitCode, dif_pos hi, if_neg hpar]
          refine .wait (.scan (i + 1) havekids) fun q hq hq' => ?_
          rcases Nat.lt_succ_iff_lt_or_eq.mp hq with hlt | heq
          · exact hclean q hlt hq'
          · rw [(hcalm id).parent, show q = ⟨i, hi⟩ from Fin.ext heq] at hq'
            exact absurd hq' hpar
      · have hall : s'.Clean p n := fun q hq =>
          hclean q (Nat.lt_of_lt_of_le hq (Nat.le_of_not_lt hi))
        cases havekids with
        | true =>
            simp only [waitCode, dif_neg hi]
            exact .wait .killedAcquire hall
        | false =>
            simp only [waitCode, dif_neg hi]
            exact .wait .releaseWait trivial
  | acquire pp => exact .wait (.test pp) ⟨(hcalm id).clean hk.1, ((hcalm id).parent pp).trans hk.2⟩
  | test pp =>
      by_cases hz : (s.proc pp).state = .zombie
      · simp only [waitCode, if_pos hz]
        exact .wait (.copyout pp) (((hcalm id).parent pp).trans hk.2)
      · simp only [waitCode, if_neg hz]
        refine .wait (.releaseNext pp) fun q hq hpar hz' => ?_
        rcases Nat.lt_succ_iff_lt_or_eq.mp hq with hlt | heq
        · exact (hcalm id).clean hk.1 q hlt hpar hz'
        · rw [Fin.ext heq] at hz'
          exact hz ((hcalm id).zombie pp hz')
  | copyout pp =>
      cases ok with
      | true => exact .wait (.freeFields pp) (((hcalm id).parent pp).trans hk)
      | false => exact .wait (.release pp) trivial
  | freeFields pp =>
      refine .wait (.freeState pp) ?_
      show (s'.proc pp).parent = none
      rw [he.store pp _ _ rfl]
      rfl
  | freeState pp => exact .wait (.release pp) trivial
  | release pp => exact .wait .releaseWait trivial
  | releaseNext pp => exact .wait (.scan (pp + 1) true) ((hcalm id).clean hk)
  | killedAcquire => exact .wait .killedTest ((hcalm id).clean hk)
  | killedTest => exact .wait (.killedRelease _) ((hcalm id).clean hk)
  | killedRelease k =>
      cases k with
      | true => exact .wait .releaseWait trivial
      | false => exact .wait .sleep ((hcalm id).clean hk)
  | sleep => exact .sleep .acquire fun _ => (hcalm id).clean hk
  | releaseWait => exact .apart (by simp [waitCode, Instr.next])

/-- A step of `fork`. -/
theorem Family.fork_self (h : Family s) {pc : ForkPc n}
    (hst : s.stack (s.thread c) = .fork p pc :: rest)
    (hd : Does s (.fork p pc) (code s c ok (.fork p pc)))
    (he : Effects s s' c (s.thread c) rest (code s c ok (.fork p pc)))
    (hinit : s'.initproc = s.initproc) :
    Kin s' p ((forkCode s ok p pc).next ++ rest) ((forkCode s ok p pc).waits pc.locked) := by
  obtain ⟨hcur, rfl, -, hk⟩ := h.fork_top hst
  have hcalm := h.calm_of hst hd he hinit
  have hsame : ∀ {np : Fin n} {x : Option (Fin n)}, ¬ (Frame.fork p pc).Stirs →
      (s.proc np).parent = x → (s'.proc np).parent = x := fun hf hx => ((hcalm hf).parent _).trans hx
  cases pc with
  | acquire i =>
      by_cases hi : i < n
      · simp only [forkCode, dif_pos hi]
        exact .fork (.test ⟨i, hi⟩) trivial
      · simp only [forkCode, dif_neg hi]
        exact .apart (by simp [Instr.next])
  | test np =>
      by_cases hu : (s.proc np).state = .unused
      · simp only [forkCode, if_pos hu]
        exact .fork (.pidAcquire np) (hsame id (h.unused np hu))
      · simp only [forkCode, if_neg hu]
        exact .fork (.releaseNext np) trivial
  | releaseNext np => exact .fork (.acquire (np + 1)) trivial
  | pidAcquire np => exact .fork (.pidNext np) (hsame id hk)
  | pidNext np => exact .fork (.pidRelease np s.nextpid) (hsame id hk)
  | pidRelease np pid => exact .fork (.setPid np pid) (hsame id hk)
  | setPid np pid => exact .fork (.setUsed np) (hsame id hk)
  | setUsed np => exact .fork (.alloc np) (hsame id hk)
  | alloc np =>
      cases ok with
      | true => exact .fork (.setContext np) (hsame id hk)
      | false => exact .fork (.freeFields np) (hsame id hk)
  | setContext np => exact .fork (.copy np) (hsame id hk)
  | copy np =>
      cases ok with
      | true => exact .fork (.release np) (hsame id hk)
      | false => exact .fork (.freeFields np) (hsame id hk)
  | release np => exact .fork (.acquireWait np) (hsame id hk)
  | acquireWait np => exact .fork (.setParent np) (hsame id hk)
  | setParent np =>
      refine .fork (.releaseWait np) ?_
      show (s'.proc np).parent ≠ none
      rw [he.store np _ _ rfl]
      simp
  | releaseWait np => exact .fork (.reacquire np) fun hn => hk (((hcalm id).parent np).symm.trans hn)
  | reacquire np => exact .fork (.setRunnable np) fun hn => hk (((hcalm id).parent np).symm.trans hn)
  | setRunnable np => exact .fork (.releaseLast np) trivial
  | releaseLast np => exact .apart (by simp [forkCode, Instr.next])
  | freeFields np => exact .fork (.freeState np) (hsame id hk)
  | freeState np => exact .fork (.releaseLast np) trivial

/-- A step of `sleep` in `wait`. -/
theorem Family.sleep_self (h : Family s) {pc : SleepPc}
    (hst : s.stack (s.thread c) = [.sleep p (.proc p) .wait pc, .wait p (.scan 0 false)])
    (hk : pc.locked = true → s.Clean p n)
    (hd : Does s (.sleep p (.proc p) .wait pc) (code s c ok (.sleep p (.proc p) .wait pc)))
    (he : Effects s s' c (s.thread c) [.wait p (.scan 0 false)]
      (code s c ok (.sleep p (.proc p) .wait pc))) (hinit : s'.initproc = s.initproc) :
    Kin s' p ((sleepCode p (.proc p) .wait pc).next ++ [.wait p (.scan 0 false)])
      ((sleepCode p (.proc p) .wait pc).waits pc.locked) := by
  cases pc with
  | acquire => exact .sleep .releaseLk fun _ => (h.calm_of hst hd he hinit id).clean (hk rfl)
  | acquireLk => exact .wait (.scan 0 false) fun q hq => absurd hq (Nat.not_lt_zero _)
  | releaseLk => exact .sleep .setChan nofun
  | setChan => exact .sleep .setState nofun
  | setState => exact .sleep .sched nofun
  | sched => exact .sleep .clearChan nofun
  | clearChan => exact .sleep .release nofun
  | release => exact .sleep .acquireLk nofun

/-- A step of a `wakeup` of `exit`. -/
theorem Family.waking_self (h : Family s) (h' : SchedInv s') {status : Int} {chan : Chan n}
    {wpc : WakeupPc n} {pc : ExitPc} (hp : (s.cpu c).cur = some p)
    (hst : s.stack (s.thread c) = [.wakeup chan wpc, .exit p status pc]) (hne : p ≠ s.initproc)
    (hk : s.WakeKnows p chan wpc pc)
    (hd : Does s (.wakeup chan wpc) (code s c ok (.wakeup chan wpc)))
    (he : Effects s s' c (s.thread c) [.exit p status pc] (code s c ok (.wakeup chan wpc)))
    (hinit : s'.initproc = s.initproc) :
    Kin s' p ((wakeupCode s (s.cpu c).proc chan wpc).next ++ [.exit p status pc]) true := by
  have hcalm : Calm s s' := h.calm_of hst hd he hinit id
  have hne' : p ≠ s'.initproc := by rw [hinit]; exact hne
  rcases wakeupCode_next s (s.cpu c).proc chan wpc with ⟨hnext, hn⟩ | ⟨wpc', hnext, hsub⟩
  · rw [hnext]
    cases pc with
    | reparent i => exact .exit _ hne' (hcalm.swept hk.2.1)
    | acquire =>
        refine .exit _ hne' ⟨hcalm.swept hk.2.1, hcalm.alerted fun r hpar hr => ?_⟩
        exact hk.2.2 r hpar (Nat.lt_of_lt_of_le hr hn)
    | _ => exact hk.elim
  · have hdoze : ∀ q, s'.Dozes chan q → s.Dozes chan q := by
      intro q hq
      rcases h.base.dozes_step h.chanSet hst hd he hq with hq | ⟨-, lk, hf⟩
      · exact hq
      · cases hf
    have hst' : s.stack (.proc p) = .wakeup chan wpc :: [.exit p status pc] := by
      rw [← stack_of_cur hp, hst]
    have hscan := fun q hq => h.base.scanned hp hst' h' hd he hdoze (hsub q hq)
    rw [hnext]
    refine .waking hne' ?_
    cases pc with
    | reparent i =>
        obtain ⟨rfl, hsw, hinit'⟩ := hk
        refine ⟨by rw [hinit], hcalm.swept hsw, fun hlt hn => ?_⟩
        rw [hinit] at hlt hn
        rcases hscan _ hlt with hlt | hno
        · exact hinit' hlt (hcalm.naps _ hn)
        · exact hno hn.2
    | acquire =>
        obtain ⟨hchan, hsw, hal⟩ := hk
        refine ⟨by rw [hcalm.parent]; exact hchan, hcalm.swept hsw, fun r hpar hr hn => ?_⟩
        rw [hcalm.parent] at hpar
        rcases hscan r hr with hlt | hno
        · exact hal r hpar hlt (hcalm.naps _ hn)
        · rw [hchan, hpar] at hno
          exact hno hn.2
    | _ => exact hk.elim

theorem Kin.intrs {fs st : List (Frame n)} (h : Kin s p st false) (hfs : ∀ f ∈ fs, f.Intr) :
    Kin s p (fs ++ st) false := by
  induction fs with
  | nil => exact h
  | cons f fs ih =>
      exact .intr (hfs f List.mem_cons_self) (ih fun g hg => hfs g (List.mem_cons_of_mem _ hg))

theorem Effects.wait_mem {t : Thread m n} {i : Instr n} (he : Effects s s' c t rest i)
    (hok : s.locks.Ok) (hb : b = true ↔ (.wait, c) ∈ s.locks) :
    i.waits b = true ↔ (.wait, c) ∈ s'.locks := by
  rw [he.locks]
  cases i with
  | acquire lk next =>
      cases lk with
      | wait => simp [Instr.waits, Instr.locks]
      | _ => simp [Instr.waits, Instr.locks, hb]
  | release lk next =>
      rw [Instr.locks, hok.mem_release (he.mem lk next rfl)]
      cases lk with
      | wait => simp [Instr.waits]
      | _ => simp [Instr.waits, hb]
  | _ => exact hb

/-- The process that executes an instruction. -/
theorem Family.kin_self (h : Family s) (h' : SchedInv s') (hp : (s.cpu c).cur = some p)
    (hst : s.stack (s.thread c) = f :: rest) (hd : Does s f (code s c ok f))
    (he : Effects s s' c (s.thread c) rest (code s c ok f)) (hinit : s'.initproc = s.initproc) :
    ∃ b, Kin s' p (s'.stack (.proc p)) b ∧ (b = true ↔ (.wait, c) ∈ s'.locks) ∧
      (b = true → (s'.cpu c).cur = some p) := by
  obtain ⟨b, hk, hb⟩ := h.kin_of_cur hp
  have hself := h.base.self_stack hst hd he
  rw [thread_eq_proc.mpr hp] at hself
  rw [hself]
  have hst' := hst
  rw [hst] at hk
  refine ⟨(code s c ok f).waits b, ?_, he.wait_mem h.base.locks.one hb, fun hw => ?_⟩
  · generalize hfs : f :: rest = st at hk
    cases hk with
    | apart hap =>
        subst hfs
        have hf := hap f List.mem_cons_self
        rw [hf.waits]
        refine .apart fun g hg => ?_
        rcases List.mem_append.mp hg with hg | hg
        · exact hf.leads (hd.leads g hg)
        · exact hap g (List.mem_cons_of_mem _ hg)
    | @intr f' st hf hk =>
        cases hfs
        rw [hf.apart.waits]
        have hns : ¬ f.Stirs := by
          cases f with
          | yield => exact id
          | wakeup => exact id
          | _ => exact hf.elim
        refine Kin.intrs ?_ fun g hg => hf.leads (hd.leads g hg)
        refine hk.mono hinit nofun (fun status hexit => ?_) fun pc _ hfk =>
          (h.calm_of hst hd he hinit hns).forkKnows hfk
        rw [hexit] at hk
        cases hk.exit_top.2.1
    | exit pc =>
        cases hfs
        exact h.exit_self hst hd he hinit
    | waking hne hk =>
        cases hfs
        rw [Frame.Apart.waits (show (Frame.wakeup _ _).Apart from trivial)]
        exact h.waking_self h' hp hst hne hk hd he hinit
    | wait pc =>
        cases hfs
        exact h.wait_self hst hd he hinit
    | sleep pc hk =>
        cases hfs
        exact h.sleep_self hst hk hd he hinit
    | fork pc =>
        cases hfs
        exact h.fork_self hst hd he hinit
  · rw [he.cur, hp]
    exact hk.cur_self hd hw

end Self

end Xv6
