import Xv6.Proc.Effects

/-!
# Who sleeps on a channel

`sleep` gives up the caller's lock while it holds the lock of the process.  From
then on the process is as good as asleep: `Dozes` counts it among the sleepers
before its state says so.  A process begins to doze only at that point, and a
`wakeup` that has the lock of a process finds it asleep or not dozing at all.
-/

namespace Xv6

variable {m n : Nat}

/-- `SLEEPING` on a channel. -/
def Proc.Asleep (chan : Chan n) (q : Proc n) : Prop := q.state = .sleeping ∧ q.chan = chan

/-- The points of `sleep` between the release of the caller's lock and the store
of the state. -/
def Frame.Entering (chan : Chan n) : Frame n → Prop
  | .sleep _ chan' _ .setChan | .sleep _ chan' _ .setState => chan' = chan
  | _ => False

/-- The process sleeps on the channel, or is going to. -/
def Sys.Dozes (s : Sys m n) (chan : Chan n) (q : Fin n) : Prop :=
  (s.proc q).Asleep chan ∨
    ∃ c f rest, (s.cpu c).cur = some q ∧ s.stack (.proc q) = f :: rest ∧ f.Entering chan

/-- A process that is about to become `SLEEPING` has set its channel. -/
def Sys.ChanSet (s : Sys m n) : Prop :=
  ∀ c p chan lk rest, (s.cpu c).cur = some p →
    s.stack (.proc p) = .sleep p chan lk .setState :: rest → (s.proc p).chan = chan

/-- A `SLEEPING` process has called `sleep`, and its channel is the one it sleeps
on. -/
def Sys.Abed (s : Sys m n) : Prop :=
  ∀ p, (s.proc p).state = .sleeping → ∃ lk pc rest,
    s.stack (.proc p) = .sleep p (s.proc p).chan lk pc :: rest ∧ (pc = .sched ∨ pc = .clearChan)

theorem Frame.Entering.holds {f : Frame n} {chan : Chan n} (h : f.Entering chan) :
    ∃ p, f.holds = some p := by
  cases f with
  | sleep p chan' lk pc => cases pc <;> first | exact ⟨p, rfl⟩ | exact h.elim
  | _ => exact h.elim

section Steps

variable {s s' : Sys m n} {c c' : Fin m} {ok : Bool} {f g : Frame n} {rest : List (Frame n)}
  {i : Instr n} {chan : Chan n} {p q : Fin n} {lk : Lock n} {t : Thread m n}

/-- The process on a CPU, and its state. -/
theorem SchedInv.state_of_cur (h : SchedInv s) (hc : (s.cpu c).cur = some p)
    (hst : s.stack (.proc p) = f :: rest) : (s.proc p).state = f.own := by
  rw [(h.cpus.onProc c p hc).2, hst]
  rfl

theorem stack_of_cur (hc : (s.cpu c).cur = some p) :
    s.stack (s.thread c) = s.stack (.proc p) := by rw [thread_eq_proc.mpr hc]

/-- The points of `sleep` before those of `Entering`. -/
theorem sleepCode_entering {chan' : Chan n} {pc : SleepPc} (hg : g ∈ (sleepCode p chan' lk pc).next)
    (he : g.Entering chan) :
    chan' = chan ∧ (pc = .releaseLk ∨ pc = .setChan) := by
  cases pc with
  | releaseLk =>
      cases List.mem_singleton.mp hg
      exact ⟨he, .inl rfl⟩
  | setChan =>
      cases List.mem_singleton.mp hg
      exact ⟨he, .inr rfl⟩
  | acquireLk => cases hg
  | _ =>
      cases List.mem_singleton.mp hg
      exact he.elim

/-- A process on another CPU than the one that takes a step keeps its stack. -/
theorem SchedInv.stack_elsewhere (h : SchedInv s) (hst : s.stack (s.thread c) = f :: rest)
    (hd : Does s f i) (he : Effects s s' c (s.thread c) rest i) (hcc : c' ≠ c)
    (hq : (s.cpu c').cur = some q) : s'.stack (.proc q) = s.stack (.proc q) := by
  have hne : (s.cpu c).cur ≠ some q := fun hc =>
    hcc (h.cpus.uniq _ _ _ (h.claims_of_cur hq) (h.claims_of_cur hc))
  rcases h.other_stack hst hd he hne with hsame | ⟨hu, -⟩
  · exact hsame
  · exact absurd hu (h.state_of_claims (h.claims_of_cur hq)).2

/-- The innermost frame of a process on a CPU after a step, if it holds a lock: it
was there before, it comes from the step, or the process has been resumed. -/
theorem SchedInv.top_step (h : SchedInv s) (hst : s.stack (s.thread c) = f :: rest)
    (hd : Does s f i) (he : Effects s s' c (s.thread c) rest i) (hc' : (s'.cpu c').cur = some q)
    {rest' : List (Frame n)} (hst' : s'.stack (.proc q) = g :: rest') {r : Fin n}
    (hg : g.holds = some r) :
    (c' ≠ c ∧ (s.cpu c').cur = some q ∧ s.stack (.proc q) = g :: rest') ∨
      ((s.cpu c).cur = some q ∧ c' = c ∧ g ∈ i.next) ∨ g.Resumes q := by
  by_cases hcc : c' = c
  · subst hcc
    rcases h.cur_step hst hd he hc' with hcur | ⟨rfl, -⟩
    · refine .inr (.inl ⟨hcur, rfl, ?_⟩)
      have hself := h.self_stack hst hd he
      rw [thread_eq_proc.mpr hcur, hst'] at hself
      cases hn : i.next with
      | cons g' next =>
          rw [hn] at hself
          cases hself
          exact List.mem_cons_self
      | nil =>
          -- the frames below the innermost one hold no lock
          rw [hn, List.nil_append] at hself
          have hnone := h.rest_holds hst g (by rw [← hself]; exact List.mem_cons_self)
          rw [hg] at hnone
          cases hnone
    · obtain ⟨-, f', rest₁, hst₁, hres⟩ := h.swtch_resumes hst
      have hne : (s.cpu c').cur ≠ some q := by rw [(h.scheduler_top hst).1]; simp
      rcases h.other_stack hst hd he hne with hsame | ⟨-, hfork⟩
      · rw [hsame, hst₁] at hst'
        cases hst'
        exact .inr (.inr hres)
      · rw [hfork] at hst'
        cases hst'
        exact .inr (.inr rfl)
  · have hcur : (s.cpu c').cur = some q := by rw [← he.curs c' hcc]; exact hc'
    rw [h.stack_elsewhere hst hd he hcc hcur] at hst'
    exact .inl ⟨hcc, hcur, hst'⟩

/-- A process that is to run again goes on to be, unless it exits. -/
theorem live_step (hd : Does s f i) (he : Effects s s' c t rest i) (hlive : (s.proc q).state.Live)
    (hf : ∀ status, f ≠ .exit q status .setState) :
    (s'.proc q).state.Live := by
  rcases he.stores hd q with hsame | ⟨u, hu, -, hsto⟩
  · rw [hsame]
    exact hlive
  · rw [hu]
    cases hsto with
    | keep hst _ => rwa [hst]
    | wake hst _ => rcases hst with hst | hst <;> rw [hst] <;> trivial
    | dead hno _ => exact absurd hlive hno
    | exit status hf' => exact absurd hf' (hf status)
    | setChan _ _ _ hst => rwa [hst]
    | sleep _ _ _ hst => rw [hst]; trivial
    | clearChan _ _ _ hst => rwa [hst]

/-- The state of a process in the middle of `sleep` is `RUNNING`. -/
theorem SchedInv.running_in_sleep (h : SchedInv s) {pc : SleepPc}
    (hst : s.stack (s.thread c) = .sleep q chan lk pc :: rest) (hpc : pc ≠ .sched) :
    (s.cpu c).cur = some q ∧ (s.proc q).state = .running := by
  have hcur : (s.cpu c).cur = some q := h.cur_of_runsOn hst fun _ ht => ht.1
  refine ⟨hcur, ?_⟩
  rw [h.state_of_cur hcur (by rw [← stack_of_cur hcur]; exact hst)]
  cases pc with
  | sched => exact absurd rfl hpc
  | _ => rfl

/-- A process falls asleep by its own store only, after it has set its channel. -/
theorem SchedInv.asleep_step (h : SchedInv s) (hcs : s.ChanSet)
    (hst : s.stack (s.thread c) = f :: rest) (hd : Does s f i)
    (he : Effects s s' c (s.thread c) rest i) (hq : (s'.proc q).Asleep chan) :
    s.Dozes chan q := by
  rcases he.stores hd q with hsame | ⟨u, hu, -, hsto⟩
  · rw [hsame] at hq
    exact .inl hq
  · rw [hu] at hq
    obtain ⟨hstate, hchan⟩ := hq
    cases hsto with
    | keep hs hc => exact .inl ⟨hs.symm.trans hstate, hc.symm.trans hchan⟩
    | wake hs _ => rcases hs with hs | hs <;> cases hs.symm.trans hstate
    | dead _ hno => exact absurd (by rw [hstate]; trivial) hno
    | exit _ _ hs _ => cases hs.symm.trans hstate
    | setChan chan' lk hf hs _ =>
        subst hf
        have hrun := (h.running_in_sleep hst (by simp)).2
        cases (hrun.symm.trans hs.symm).trans hstate
    | sleep chan' lk hf _ hc =>
        subst hf
        have hcur := (h.running_in_sleep hst (by simp)).1
        rw [stack_of_cur hcur] at hst
        refine .inr ⟨c, _, rest, hcur, hst, ?_⟩
        exact (hcs c q chan' lk rest hcur hst).symm.trans (hc.symm.trans hchan)
    | clearChan chan' lk hf hs =>
        subst hf
        have hrun := (h.running_in_sleep hst (by simp)).2
        cases (hrun.symm.trans hs.symm).trans hstate

/-- A process begins to doze when it gives up the lock in `sleep`. -/
theorem SchedInv.dozes_step (h : SchedInv s) (hcs : s.ChanSet)
    (hst : s.stack (s.thread c) = f :: rest) (hd : Does s f (code s c ok f))
    (he : Effects s s' c (s.thread c) rest (code s c ok f)) (hq : s'.Dozes chan q) :
    s.Dozes chan q ∨ ((s.cpu c).cur = some q ∧ ∃ lk, f = .sleep q chan lk .releaseLk) := by
  rcases hq with hq | ⟨c', g, rest', hc', hst', hg⟩
  · exact .inl (h.asleep_step hcs hst hd he hq)
  · obtain ⟨r, hr⟩ := hg.holds
    rcases h.top_step hst hd he hc' hst' hr with ⟨-, hcur, hst₁⟩ | ⟨hcur, -, hmem⟩ | hres
    · exact .inl (.inr ⟨c', g, rest', hcur, hst₁, hg⟩)
    · have hl := hd.leads g hmem
      cases hl with
      | sleep p chan' lk pc pc' =>
          obtain ⟨hp, -⟩ := h.frames.runsOn _ _ (mem_top hst)
          rw [thread_eq_proc.mpr hcur] at hp
          cases hp
          obtain ⟨rfl, rfl | rfl⟩ := sleepCode_entering hmem hg
          · exact .inr ⟨hcur, lk, rfl⟩
          · rw [stack_of_cur hcur] at hst
            exact .inl (.inr ⟨c, _, rest, hcur, hst, rfl⟩)
      | _ => exact hg.elim
    · cases g with
      | sleep p chan' lk pc => cases pc <;> first | exact hg.elim | exact hres.elim
      | _ => exact hg.elim

/-- The channel of a process is its own while it runs. -/
theorem SchedInv.chan_elsewhere (h : SchedInv s) (hst : s.stack (s.thread c) = f :: rest)
    (hd : Does s f i) (he : Effects s s' c t rest i) (hne : (s.cpu c).cur ≠ some q)
    (hlive : (s.proc q).state.Live) :
    (s'.proc q).chan = (s.proc q).chan := by
  rcases he.stores hd q with hsame | ⟨u, hu, -, hsto⟩
  · rw [hsame]
  · rw [hu]
    cases hsto with
    | keep _ hc => exact hc
    | wake _ hc => exact hc
    | dead hno _ => exact absurd hlive hno
    | exit _ _ _ hc => exact hc
    | sleep _ _ _ _ hc => exact hc
    | setChan _ _ hf =>
        subst hf
        exact absurd (h.running_in_sleep hst (by simp)).1 hne
    | clearChan _ _ hf =>
        subst hf
        exact absurd (h.running_in_sleep hst (by simp)).1 hne

theorem SchedInv.chanSet_step (h : SchedInv s) (hcs : s.ChanSet)
    (hst : s.stack (s.thread c) = f :: rest) (hd : Does s f (code s c ok f))
    (he : Effects s s' c (s.thread c) rest (code s c ok f)) : s'.ChanSet := by
  intro c' p chan lk rest' hc' hst'
  rcases h.top_step hst hd he hc' hst' rfl with ⟨hcc, hcur, hst₁⟩ | ⟨hcur, -, hmem⟩ | hres
  · have hne : (s.cpu c).cur ≠ some p := fun hc =>
      hcc (h.cpus.uniq _ _ _ (h.claims_of_cur hcur) (h.claims_of_cur hc))
    have hlive : (s.proc p).state.Live := by
      rw [h.state_of_cur hcur hst₁]
      trivial
    rw [h.chan_elsewhere hst hd he hne hlive]
    exact hcs c' p chan lk rest' hcur hst₁
  · have hl := hd.leads _ hmem
    cases hl with
    | sleep p chan lk pc pc' =>
        cases pc with
        | setChan => rw [he.store p _ _ rfl]
        | acquireLk => cases hmem
        | _ => cases List.mem_singleton.mp hmem
  · exact hres.elim

/-- The frame of a process on a CPU whose state is `SLEEPING`. -/
theorem Frame.sleep_of_own {f : Frame n} (h : f.own = .sleeping) :
    ∃ p chan lk, f = .sleep p chan lk .sched := by
  cases f with
  | sleep p chan lk pc => cases pc <;> first | exact ⟨p, chan, lk, rfl⟩ | cases h
  | yield p pc => cases pc <;> cases h
  | exit p status pc => cases pc <;> cases h
  | _ => cases h

theorem SchedInv.abed_step (h : SchedInv s) (hcs : s.ChanSet) (hab : s.Abed)
    (hst : s.stack (s.thread c) = f :: rest) (hd : Does s f (code s c ok f))
    (he : Effects s s' c (s.thread c) rest (code s c ok f)) : s'.Abed := by
  intro p hp
  have hself := h.self_stack hst hd he
  -- the process slept before
  have hold : (s.proc p).state = .sleeping → (s'.proc p).chan = (s.proc p).chan →
      ∃ lk pc rest, s'.stack (.proc p) = .sleep p (s'.proc p).chan lk pc :: rest ∧
        (pc = .sched ∨ pc = .clearChan) := by
    intro hs hchan
    obtain ⟨lk, pc, rest', hp', hpc⟩ := hab p hs
    rw [hchan]
    by_cases hcur : (s.cpu c).cur = some p
    · rw [thread_eq_proc.mpr hcur] at hself
      rw [stack_of_cur hcur] at hst
      have hown := h.state_of_cur hcur hst
      rw [hs] at hown
      obtain ⟨q, chan, lk', rfl⟩ := Frame.sleep_of_own hown.symm
      rw [hp'] at hst
      cases hst
      exact ⟨lk, .clearChan, _, hself, .inr rfl⟩
    · rcases h.other_stack hst hd he hcur with hsame | ⟨hused, -⟩
      · exact ⟨lk, pc, rest', by rw [hsame, hp'], hpc⟩
      · rw [hs] at hused
        cases hused
  rcases he.stores hd p with hsame | ⟨u, hu, -, hsto⟩
  · rw [hsame] at hp
    exact hold hp (by rw [hsame])
  · rw [hu] at hp
    cases hsto with
    | keep hs hc => exact hold (hs.symm.trans hp) (by rw [hu, hc])
    | wake hs _ => rcases hs with hs | hs <;> cases hs.symm.trans hp
    | dead _ hno => exact absurd (by rw [hp]; trivial) hno
    | exit _ _ hs _ => cases hs.symm.trans hp
    | setChan chan lk hf hs _ =>
        subst hf
        cases ((h.running_in_sleep hst (by simp)).2.symm.trans hs.symm).trans hp
    | clearChan chan lk hf hs =>
        subst hf
        cases ((h.running_in_sleep hst (by simp)).2.symm.trans hs.symm).trans hp
    | sleep chan lk hf _ hc =>
        subst hf
        have hcur := (h.running_in_sleep hst (by simp)).1
        rw [thread_eq_proc.mpr hcur] at hself
        rw [stack_of_cur hcur] at hst
        refine ⟨lk, .sched, rest, ?_, .inl rfl⟩
        rw [hu, hc, hcs c p chan lk rest hcur hst]
        exact hself

end Steps

end Xv6
