import Xv6.Proc.FamilySelf

/-!
# A step of a family

Every step keeps `Family`.  If the process that takes the step has `wait_lock`,
no other process has it, and the others know little.  If it has not, the step is
calm, and the others still know what they knew.
-/

namespace Xv6

variable {m n : Nat} {s s' : Sys m n} {c : Fin m} {ok : Bool} {f g : Frame n}
  {rest : List (Frame n)} {p q r : Fin n} {b : Bool}

/-! ## The other processes -/

section Others

variable (h : Family s) (hst : s.stack (s.thread c) = f :: rest)
  (hd : Does s f (code s c ok f)) (he : Effects s s' c (s.thread c) rest (code s c ok f))

include h hst he

/-- `exit` of another process does not change the status of a process. -/
theorem Family.xstate_other (hne : (s.cpu c).cur ≠ some p) (hlive : (s.proc p).state.Live) :
    (s'.proc p).xstate = (s.proc p).xstate := by
  cases h.writes_step hst he p with
  | keep _ _ _ hx => exact hx
  | live _ _ _ _ hx => exact hx
  | unborn _ _ _ hb => exact absurd hlive.born hb
  | setXstate status hf =>
      subst hf
      exact absurd (h.exit_top hst).1 hne
  | freeFields r hf =>
      subst hf
      have hz : (s.proc p).state = .zombie := h.base.sees_of hst p .zombie rfl
      exact absurd hz hlive.ne_zombie
  | setParent _ _ hy => rw [hy]
  | setRunnable _ _ hy => rw [hy]
  | reparent _ _ _ _ hy => rw [hy]
  | exit _ _ hy => rw [hy]
  | freeState _ _ hy => rw [hy]

/-- A new process belongs to one `fork`. -/
theorem Family.forkKnows_other (hne : (s.cpu c).cur ≠ some p) {pc : ForkPc n}
    (hm : .fork p pc ∈ s.stack (.proc p)) (hk : s.ForkKnows pc) : s'.ForkKnows pc := by
  have hchild : ∀ np, (Frame.fork p pc).child = some np → ∀ r, f ≠ .fork r (.setParent np) := by
    intro np hnp r hf
    have htop : np ∈ children (s.stack (s.thread c)) := by
      rw [hst, hf]
      exact List.mem_cons_self
    have hmem : np ∈ children (s.stack (.proc p)) := List.mem_filterMap.mpr ⟨_, hm, hnp⟩
    exact hne (thread_eq_proc.mp (h.base.frames.disjoint _ _ np htop hmem))
  have hused : ∀ np, (Frame.fork p pc).child = some np → (s.proc np).state = .used := fun np hnp =>
    (h.base.frames.used _ _ np hm hnp).1
  have hsees : ∀ np, (Frame.fork p pc).sees = some (np, .unused) →
      ∀ r, f ≠ .fork r (.setParent np) := by
    intro np hnp r hf
    have hu := (h.base.frames.sees _ _ np _ hm hnp).1
    have hu' := (h.base.frames.used _ f np (mem_top hst) (by rw [hf]; rfl)).1
    rw [hu] at hu'
    cases hu'
  have hnew : ∀ np, (∀ r, f ≠ .fork r (.setParent np)) → (s.proc np).parent = none →
      (s'.proc np).parent = none := by
    intro np hf hnone
    cases h.writes_step hst he np with
    | keep _ hp => exact hp.trans hnone
    | live _ _ hp => exact hp.trans hnone
    | unborn _ _ _ _ _ _ hp => exact hp
    | setParent r hf' => exact absurd hf' (hf r)
    | reparent r status _ hp =>
        rw [hnone] at hp
        cases hp
    | freeFields _ _ hy => rw [hy]; rfl
    | setRunnable _ _ hy => rw [hy]; exact hnone
    | setXstate _ _ hy => rw [hy]; exact hnone
    | exit _ _ hy => rw [hy]; exact hnone
    | freeState _ _ hy => rw [hy]; exact hnone
  have hmade : ∀ np, (Frame.fork p pc).child = some np → (s.proc np).parent ≠ none →
      (s'.proc np).parent ≠ none := by
    intro np hnp hsome
    cases h.writes_step hst he np with
    | keep _ hp => rw [hp]; exact hsome
    | live _ _ hp => rw [hp]; exact hsome
    | unborn _ _ _ _ _ hp => exact absurd hp hsome
    | setParent _ _ hy => rw [hy]; simp
    | reparent _ _ _ _ hy => rw [hy]; simp
    | freeFields r hf =>
        subst hf
        have hz : (s.proc np).state = .zombie := h.base.sees_of hst np .zombie rfl
        rw [hused np hnp] at hz
        cases hz
    | setRunnable _ _ hy => rw [hy]; exact hsome
    | setXstate _ _ hy => rw [hy]; exact hsome
    | exit _ _ hy => rw [hy]; exact hsome
    | freeState _ _ hy => rw [hy]; exact hsome
  cases pc with
  | acquire i => trivial
  | test np => trivial
  | releaseNext np => trivial
  | releaseLast np => trivial
  | releaseWait np => exact hmade np rfl hk
  | reacquire np => exact hmade np rfl hk
  | setRunnable np => exact hmade np rfl hk
  | pidAcquire np => exact hnew np (hsees np rfl) hk
  | pidNext np => exact hnew np (hsees np rfl) hk
  | pidRelease np pid => exact hnew np (hsees np rfl) hk
  | setPid np pid => exact hnew np (hsees np rfl) hk
  | setUsed np => exact hnew np (hsees np rfl) hk
  | _ => exact hnew _ (hchild _ rfl) hk

include hd

/-- A process on no CPU, or on another one. -/
theorem Family.kin_other (hinit : s'.initproc = s.initproc) (hne : (s.cpu c).cur ≠ some p) :
    ∃ b, Kin s' p (s'.stack (.proc p)) b ∧ (b = true ↔ s.Holds .wait p) := by
  obtain ⟨b, hk, hb⟩ := h.kin p
  rcases h.base.other_stack hst hd he hne with hsame | ⟨hused, hfork⟩
  · rw [hsame]
    refine ⟨b, hk.mono hinit (fun hbt => ?_) (fun status hexit => ?_) fun pc hm => ?_, hb⟩
    · refine h.calm_of_unlocked hst hd he hinit fun hm => ?_
      obtain ⟨r, hr⟩ := h.held c hm
      have := (hb.mp hbt).eq h.base ⟨c, hr, hm⟩
      subst this
      exact hne hr
    · refine h.xstate_other hst he hne ?_
      rw [hexit] at hk
      obtain ⟨-, rfl, -⟩ := hk.exit_top
      obtain ⟨c', hc', -⟩ := hb.mp rfl
      rw [h.base.state_of_cur hc' hexit]
      trivial
    · exact h.forkKnows_other hst he hne hm
  · rw [hfork]
    refine ⟨false, .apart (by simp [Frame.Apart]), ?_⟩
    refine ⟨nofun, fun ⟨c', hc', _⟩ => ?_⟩
    exact absurd hused (h.base.state_of_claims (h.base.claims_of_cur hc')).2

/-- The parent of a zombie does not sleep in `wait`, or is being woken up. -/
theorem Family.awake_step (hpar : (s'.proc q).parent = some r) (hz : (s'.proc q).state = .zombie)
    (hn : s'.Naps r) : ∃ p status wpc i,
      s'.stack (.proc p) = [.wakeup (.proc r) wpc, .exit p status (.reparent i)] := by
  have hself := h.base.self_stack hst hd he
  by_cases hold : (s.proc q).parent = some r ∧ (s.proc q).state = .zombie ∧ s.Naps r
  · obtain ⟨p, status, wpc, i, hp⟩ := h.awake q r hold.1 hold.2.1 hold.2.2
    obtain ⟨b, hk, hb⟩ := h.kin p
    rw [hp] at hk
    obtain ⟨rfl, hr, -, hno⟩ := hk.waking_top
    by_cases hcur : (s.cpu c).cur = some p
    · rw [stack_of_cur hcur, hp] at hst
      cases hst
      rw [thread_eq_proc.mpr hcur] at hself
      rcases wakeupCode_next s (s.cpu c).proc (.proc r) wpc with ⟨-, hend⟩ | ⟨wpc', hnext, -⟩
      · -- the scan has passed every process
        cases hr
        exact absurd hold.2.2 (hno (Nat.lt_of_lt_of_le (Fin.isLt _) hend))
      · refine ⟨p, status, wpc', i, ?_⟩
        rw [hself]
        exact congrArg (· ++ _) hnext
    · refine ⟨p, status, wpc, i, ?_⟩
      rcases h.base.other_stack hst hd he hcur with hsame | ⟨hused, -⟩
      · rw [hsame, hp]
      · obtain ⟨c', hc', -⟩ := hb.mp rfl
        exact absurd hused (h.base.state_of_claims (h.base.claims_of_cur hc')).2
  · have hw := h.writes_step hst he q
    rcases h.naps_step hst hd he hn with hnr | ⟨hcur, -, -, hclean, chan, lk, rfl⟩
    · cases hw with
      | keep hs hp _ _ => exact absurd ⟨hp.symm.trans hpar, hs.symm.trans hz, hnr⟩ hold
      | live _ hl => exact absurd hz hl.ne_zombie
      | unborn _ _ _ _ hb => exact absurd (by rw [hz]; trivial) hb
      | setParent p hf hy =>
          -- the new process is `USED`
          have hu := (h.base.frames.used _ f q (mem_top hst)
            (by rw [hf]; rfl)).1
          rw [hy] at hz
          cases hu.symm.trans hz
      | setRunnable _ _ hy =>
          rw [hy] at hz
          cases hz
      | reparent p status hf hp hy =>
          rw [hy] at hpar
          cases hpar
          subst hf
          refine ⟨p, status, .next 0, q + 1, ?_⟩
          obtain ⟨hcur, rfl, -⟩ := h.exit_top hst
          rw [thread_eq_proc.mpr hcur] at hself
          simpa [code, exitCode, hp, Instr.next] using hself
      | setXstate _ _ hy =>
          rw [hy] at hpar hz
          exact absurd ⟨hpar, hz, hnr⟩ hold
      | exit status hf hy =>
          subst hf
          rw [hy] at hpar
          obtain ⟨-, -, -, -, -, hal, -⟩ := h.exit_top hst
          exact absurd hnr (hal r hpar r.isLt)
      | freeFields _ _ hy =>
          rw [hy] at hpar
          cases hpar
      | freeState _ _ hy =>
          rw [hy] at hz
          cases hz
    · have hsame : (s'.proc q).parent = (s.proc q).parent ∧ (s'.proc q).state = (s.proc q).state := by
        rw [he.proc q fun u next hu => by cases hu]
        exact ⟨rfl, rfl⟩
      exact absurd (hsame.2.symm.trans hz) (hclean q q.isLt (hsame.1.symm.trans hpar))

/-- A process that has been made has a parent, or is being freed. -/
theorem Family.parent_step (hne : q ≠ s.initproc) (hb : (s'.proc q).state.Born) :
    (s'.proc q).parent ≠ none ∨ s'.Freeing q := by
  have hself := h.base.self_stack hst hd he
  -- a process that was there before
  have hold : (s.proc q).state.Born → (s'.proc q).parent = (s.proc q).parent →
      (s'.proc q).parent ≠ none ∨ s'.Freeing q := by
    intro hborn hpar
    rcases h.parent q hne hborn with hsome | ⟨p, hp⟩
    · exact .inl (by rw [hpar]; exact hsome)
    · by_cases hcur : (s.cpu c).cur = some p
      · rw [stack_of_cur hcur, hp] at hst
        cases hst
        rw [he.store q _ _ rfl] at hb
        exact hb.elim
      · refine .inr ⟨p, ?_⟩
        rcases h.base.other_stack hst hd he hcur with hsame | ⟨hused, -⟩
        · rw [hsame, hp]
        · obtain ⟨-, c', hc'⟩ := h.base.frames.sees _ _ q .zombie
            (mem_top hp) rfl
          exact absurd hused
            (h.base.state_of_claims (h.base.claims_of_cur (thread_eq_proc.mp hc'))).2
  cases h.writes_step hst he q with
  | keep hs hp => exact hold (by rw [← hs]; exact hb) hp
  | live hl _ hp => exact hold hl.born hp
  | unborn _ _ _ _ hb' => exact absurd hb hb'
  | setParent _ _ hy => exact .inl (by rw [hy]; simp)
  | setRunnable p hf hy =>
      subst hf
      obtain ⟨-, -, -, hk⟩ := h.fork_top hst
      exact .inl (by rw [hy]; exact hk)
  | reparent _ _ _ _ hy => exact .inl (by rw [hy]; simp)
  | setXstate _ _ hy => exact hold (by rw [hy] at hb; exact hb) (by rw [hy])
  | exit status hf hy =>
      subst hf
      have hcur := (h.exit_top hst).1
      have hs := h.base.state_of_cur hcur (by rw [← stack_of_cur hcur]; exact hst)
      exact hold (by rw [hs]; trivial) (by rw [hy])
  | freeFields p hf hy =>
      subst hf
      obtain ⟨hcur, rfl, -⟩ := h.wait_top hst
      rw [thread_eq_proc.mpr hcur] at hself
      exact .inr ⟨p, hself⟩
  | freeState _ _ hy =>
      rw [hy] at hb
      exact hb.elim

omit hd in
theorem Family.unused_step (hu : (s'.proc q).state = .unused) : (s'.proc q).parent = none := by
  cases h.writes_step hst he q with
  | keep hs hp => exact hp.trans (h.unused q (hs.symm.trans hu))
  | live _ hl =>
      rw [hu] at hl
      exact hl.elim
  | unborn _ _ _ _ _ _ hp => exact hp
  | setParent p hf hy =>
      have hused := (h.base.frames.used _ f q (mem_top hst)
        (by rw [hf]; rfl)).1
      rw [hy] at hu
      cases hused.symm.trans hu
  | setRunnable _ _ hy =>
      rw [hy] at hu
      cases hu
  | reparent p _ _ hp hy =>
      rw [hy] at hu
      rw [h.unused q hu] at hp
      cases hp
  | setXstate _ _ hy =>
      rw [hy] at hu ⊢
      exact h.unused q hu
  | exit _ _ hy =>
      rw [hy] at hu
      cases hu
  | freeFields _ _ hy =>
      rw [hy]
      rfl
  | freeState p hf hy =>
      subst hf
      obtain ⟨-, -, -, hk⟩ := h.wait_top hst
      rw [hy]
      exact hk

/-- A parent is to run again. -/
theorem Family.alive_step (hpar : (s'.proc q).parent = some r) : (s'.proc r).state.Live := by
  have hlive : (s.proc r).state.Live → (∀ status, f = .exit r status .setState →
      (s.proc q).parent = some r) → (s'.proc r).state.Live := by
    intro hl hex
    refine live_step hd he hl fun status hf => ?_
    have hp := hex status hf
    subst hf
    obtain ⟨-, -, -, -, hsw, -⟩ := h.exit_top hst
    exact hsw q q.isLt hp
  have hold : (s.proc q).parent = some r → (s'.proc r).state.Live := fun hp =>
    hlive (h.alive q r hp) fun _ _ => hp
  cases h.writes_step hst he q with
  | keep _ hp => exact hold (hp.symm.trans hpar)
  | live _ _ hp => exact hold (hp.symm.trans hpar)
  | unborn _ _ _ _ _ _ hp =>
      rw [hpar] at hp
      cases hp
  | setParent p hf hy =>
      rw [hy] at hpar
      cases hpar
      subst hf
      have hcur := (h.fork_top hst).1
      refine live_step hd he ?_ (by simp)
      rw [h.base.state_of_cur hcur (by rw [← stack_of_cur hcur]; exact hst)]
      trivial
  | reparent p status hf _ hy =>
      rw [hy] at hpar
      cases hpar
      exact live_step hd he h.initLive (by rw [hf]; simp)
  | setRunnable _ _ hy => exact hold (by rw [hy] at hpar; exact hpar)
  | setXstate _ _ hy => exact hold (by rw [hy] at hpar; exact hpar)
  | exit _ _ hy => exact hold (by rw [hy] at hpar; exact hpar)
  | freeFields _ _ hy =>
      rw [hy] at hpar
      cases hpar
  | freeState _ _ hy => exact hold (by rw [hy] at hpar; exact hpar)

end Others

/-- A step of a process without `wait_lock` that leaves the process table alone. -/
theorem Family.quiet (h : Family s) (hb' : SchedInv s') (hcs : s'.ChanSet) (hcalm : Calm s s')
    (hproc : s'.proc = s.proc) (hcurs : ∀ c', (s'.cpu c').cur = (s.cpu c').cur)
    (hlocks : ∀ c', (.wait, c') ∈ s'.locks ↔ (.wait, c') ∈ s.locks)
    (hstack : ∀ q, s'.stack (.proc q) = s.stack (.proc q) ∨
      ¬ s.Holds .wait q ∧ Kin s q (s'.stack (.proc q)) false) : Family s' := by
  have hholds : ∀ p, s'.Holds .wait p ↔ s.Holds .wait p := fun p =>
    exists_congr fun c' => by rw [hcurs c', hlocks c']
  have hmono : ∀ {p : Fin n} {st : List (Frame n)} {b : Bool}, Kin s p st b → Kin s' p st b :=
    fun hk => hk.mono hcalm.initproc (fun _ => hcalm) (fun _ _ => by rw [hproc])
      fun _ _ => hcalm.forkKnows
  refine ⟨hb', hcs, fun p => ?_, fun c' hm => ?_, ?_, fun q r hpar => ?_, fun q hq hborn => ?_,
    fun q hu => ?_, fun q r hpar hz hn => ?_⟩
  · obtain ⟨b, hk, hb⟩ := h.kin p
    rcases hstack p with hsame | ⟨hno, hk'⟩
    · exact ⟨b, by rw [hsame]; exact hmono hk, hb.trans (hholds p).symm⟩
    · exact ⟨false, hmono hk', nofun, fun hx => absurd ((hholds p).mp hx) hno⟩
  · rw [hcurs]
    exact h.held c' ((hlocks c').mp hm)
  · rw [hproc, hcalm.initproc]
    exact h.initLive
  · rw [hproc] at hpar ⊢
    exact h.alive q r hpar
  · rw [hproc] at hborn ⊢
    rw [hcalm.initproc] at hq
    refine (h.parent q hq hborn).imp_right fun ⟨p, hp⟩ => ⟨p, ?_⟩
    rcases hstack p with hsame | ⟨hno, -⟩
    · rw [hsame, hp]
    · obtain ⟨b, hk, hb⟩ := h.kin p
      rw [hp] at hk
      obtain ⟨-, rfl, -⟩ := hk.wait_top
      exact absurd (hb.mp rfl) hno
  · rw [hproc] at hu ⊢
    exact h.unused q hu
  · rw [hproc] at hpar hz
    obtain ⟨p, status, wpc, i, hp⟩ := h.awake q r hpar hz (hcalm.naps r hn)
    refine ⟨p, status, wpc, i, ?_⟩
    rcases hstack p with hsame | ⟨hno, -⟩
    · rw [hsame, hp]
    · obtain ⟨b, hk, hb⟩ := h.kin p
      rw [hp] at hk
      obtain ⟨rfl, -⟩ := hk.waking_top
      exact absurd (hb.mp rfl) hno

theorem Family.halt (h : Family s) (e : SchedPanic) : Family (s.halt e) :=
  h.quiet (h.base.halt e) h.chanSet ⟨rfl, fun _ => rfl, fun _ => id, fun _ => id⟩ rfl (fun _ => rfl)
    (fun _ => Iff.rfl) fun _ => .inl rfl

theorem Family.run (h : Family s) (hs' : schedAct s (.run c ok) = some s') : Family s' := by
  have hb' := h.base.act hs'
  have hinit := initproc_act hs'
  rcases h.base.run_effects hs' with ⟨e, rfl⟩ | ⟨f, rest, hst, hd, he⟩
  · exact h.halt e
  · have hlocks := fun c' (hc' : c' ≠ c) => he.locks_elsewhere h.base.locks.one hc' .wait
    -- a scheduler has no `wait_lock`
    have hnone : (s.cpu c).cur = none → (.wait, c) ∉ s.locks := by
      intro hn hm
      obtain ⟨p, hp⟩ := h.held c hm
      rw [hn] at hp
      cases hp
    refine ⟨hb', h.base.chanSet_step h.chanSet hst hd he, fun p => ?_, fun c' hm => ?_, ?_,
      fun q r hpar => ?_, fun q hq hborn => ?_, fun q hu => ?_, fun q r hpar hz hn => ?_⟩
    · by_cases hp : (s.cpu c).cur = some p
      · obtain ⟨b, hk, hb, hcur⟩ := h.kin_self hb' hp hst hd he hinit
        refine ⟨b, hk, ?_⟩
        rw [h.base.holds_here he.curs hp]
        exact ⟨fun hbt => ⟨hcur hbt, hb.mp hbt⟩, fun hm => hb.mpr hm.2⟩
      · obtain ⟨b, hk, hb⟩ := h.kin_other hst hd he hinit hp
        refine ⟨b, hk, hb.trans (Sys.holds_elsewhere he.curs hlocks (fun hcur hm => ?_) hp).symm⟩
        rcases h.base.cur_step hst hd he hcur with hc | ⟨rfl, hn⟩
        · exact hp hc
        · rw [he.locks] at hm
          exact hnone hn hm
    · by_cases hcc : c' = c
      · subst hcc
        cases hcur : (s.cpu c').cur with
        | some p =>
            obtain ⟨b, -, hb, hcur'⟩ := h.kin_self hb' hcur hst hd he hinit
            exact ⟨p, hcur' (hb.mpr hm)⟩
        | none =>
            have hap : f.Apart := by
              have hruns := h.base.frames.runsOn _ f (mem_top hst)
              rw [thread_eq_scheduler.mpr ⟨hcur, rfl⟩] at hruns
              cases f with
              | exit => cases hruns
              | wait => cases hruns
              | fork => cases hruns
              | sleep => cases hruns.1
              | _ => trivial
            have hw := (he.wait_mem h.base.locks.one
              (show false = true ↔ _ from ⟨nofun, fun hm' => absurd hm' (hnone hcur)⟩)).mpr hm
            rw [hap.waits] at hw
            cases hw
      · rw [he.curs c' hcc]
        exact h.held c' ((hlocks c' hcc).mp hm)
    · rw [hinit]
      refine live_step hd he h.initLive fun status hf => ?_
      subst hf
      exact absurd rfl (h.exit_top hst).2.2.2.1
    · exact h.alive_step hst hd he hpar
    · exact h.parent_step hst hd he (by rw [← hinit]; exact hq) hborn
    · exact h.unused_step hst he hu
    · exact h.awake_step hst hd he hpar hz hn

/-! ## The other steps -/

/-- Frames are put on the stack of a process without `wait_lock`. -/
theorem Family.push (h : Family s) {fs : List (Frame n)}
    (hb' : SchedInv (s.setStack (s.thread c) fs))
    (henter : ∀ f rest, fs = f :: rest → (∀ chan, ¬ f.Entering chan) ∧
      ∀ p chan lk, f ≠ .sleep p chan lk .setState)
    (hself : ∀ p, (s.cpu c).cur = some p → ¬ s.Holds .wait p ∧ Kin s p fs false ∧
      ((∀ pc, .wait p pc ∈ fs → s.InWait p) ∨ ∀ chan, ¬ s.Dozes chan p)) :
    Family (s.setStack (s.thread c) fs) := by
  have hstack : ∀ q, (s.cpu c).cur ≠ some q →
      (s.setStack (s.thread c) fs).stack (.proc q) = s.stack (.proc q) := fun q hq =>
    Sys.stack_setStack_of_ne s (fun ht => hq (thread_eq_proc.mp ht.symm)) fs
  refine h.quiet hb' (ChanSet.setStack h.chanSet h.base fun p chan lk rest hfs => ?_)
    ⟨rfl, fun _ => rfl, fun _ => id, fun r hr => ?_⟩ rfl (fun _ => rfl) (fun _ => Iff.rfl)
    fun q => ?_
  · exact (henter _ rest hfs).2 p chan lk rfl
  · have hdz := h.base.dozes_setStack (fun f rest hfs => (henter f rest hfs).1 _) hr.2
    refine ⟨?_, hdz⟩
    obtain ⟨pc, hpc⟩ := hr.1
    by_cases hcur : (s.cpu c).cur = some r
    · rw [← thread_eq_proc.mpr hcur, Sys.stack_setStack_self] at hpc
      rcases (hself r hcur).2.2 with hin | hno
      · exact hin pc hpc
      · exact absurd hdz (hno _)
    · rw [hstack r hcur] at hpc
      exact ⟨pc, hpc⟩
  · by_cases hcur : (s.cpu c).cur = some q
    · obtain ⟨hno, hk, -⟩ := hself q hcur
      rw [← thread_eq_proc.mpr hcur, Sys.stack_setStack_self]
      exact .inr ⟨hno, hk⟩
    · exact .inl (hstack q hcur)

theorem Call.kin (f : Call n) (hf : ∀ status, f = .exit status → p ≠ s.initproc) :
    Kin s p [Call.frame p f] false := by
  cases f with
  | exit status => exact .exit .acquireWait (hf status rfl) trivial
  | wait => exact .wait .acquireWait trivial
  | fork => exact .fork (.acquire 0) trivial
  | _ => exact .apart (by simp [Call.frame, Frame.Apart])

theorem Family.act (h : Family s) {a : SchedAct m n} (hs' : schedAct s a = some s') :
    Family s' := by
  have hb' := h.base.act hs'
  cases h.base.acts hs' with
  | run hs' => exact h.run hs'
  | halt a e => exact h.halt e
  | @call c p f hcur hnil hf =>
      refine h.push hb' (fun g rest hg => ?_) fun q hq => ?_
      · cases hg
        cases f <;> exact ⟨fun _ => id, by simp [Call.frame]⟩
      · cases hcur.symm.trans hq
        obtain ⟨b, hk, hb⟩ := h.kin p
        have hnil' : s.stack (.proc p) = [] := by rw [← stack_of_cur hcur]; exact hnil
        rw [hnil'] at hk
        cases hk
        refine ⟨fun hx => Bool.noConfusion (hb.mpr hx), f.kin hf, .inr ?_⟩
        rintro chan (⟨hs, -⟩ | ⟨c', g, rest, -, hg, -⟩)
        · rw [(h.base.cpus.onProc c p hcur).2, hnil'] at hs
          cases hs
        · rw [hnil'] at hg
          cases hg
  | lock c k =>
      have hcur := fun c' => cur_lock s c c' (.other k)
      refine h.quiet hb' (fun c' p chan lk rest hc' => ?_)
        ⟨rfl, fun _ => rfl, fun _ => id, fun r hr => ⟨hr.1, dozes_of_same hcur rfl rfl hr.2⟩⟩ rfl
        hcur (fun c' => ?_) fun _ => .inl rfl
      · exact h.chanSet c' p chan lk rest ((hcur c').symm.trans hc')
      · simp [Sys.lock]
  | unlock c k =>
      have hcur := fun c' => cur_unlock s c c' (.other k)
      refine h.quiet hb' (fun c' p chan lk rest hc' => ?_)
        ⟨rfl, fun _ => rfl, fun _ => id, fun r hr => ⟨hr.1, dozes_of_same hcur rfl rfl hr.2⟩⟩ rfl
        hcur (fun c' => ?_) fun _ => .inl rfl
      · exact h.chanSet c' p chan lk rest ((hcur c').symm.trans hc')
      · exact List.mem_erase_of_ne (by simp)
  | @interrupt a g hn hg =>
      refine h.push hb' (fun f rest hf => ?_) fun p hcur => ?_
      · cases hf
        cases g with
        | yield => exact ⟨fun _ => id, by simp⟩
        | wakeup => exact ⟨fun _ => id, by simp⟩
        | _ => exact hg.elim
      · obtain ⟨b, hk, hb⟩ := h.kin_of_cur hcur
        have hnot : (.wait, a.cpu) ∉ s.locks := by
          rw [h.base.locks.noff] at hn
          exact Spin.Held.notMem_of_count_zero hn _
        have hbf : b = false := by
          rw [← Bool.not_eq_true, hb]
          exact hnot
        subst hbf
        refine ⟨fun hx => hnot ((h.base.holds_here (fun _ _ => rfl) hcur).mp hx).2, .intr hg hk,
          .inl fun pc hpc => ?_⟩
        rcases List.mem_cons.mp hpc with rfl | hpc
        · exact hg.elim
        · exact ⟨pc, by rw [← stack_of_cur hcur]; exact hpc⟩

theorem Family.init (m n : Nat) (p : Fin n) : Family (Sys.init m n p) := by
  have hproc : ∀ q, ((Sys.init m n p).proc q).parent = none := fun q => (Sys.init_proc p q).2.1
  have hlocks : ∀ q, ¬ (Sys.init m n p).Holds .wait q := fun q ⟨c, _, hm⟩ => by cases hm
  refine ⟨.init m n p, fun c q chan lk rest hc => (by cases hc), fun q => ⟨false, .apart ?_, nofun,
    fun hx => absurd hx (hlocks q)⟩, fun c hm => (by cases hm), ?_, fun q r hpar => ?_,
    fun q hq hborn => ?_, fun q _ => hproc q, fun q r hpar => ?_⟩
  · intro f hf
    rw [Sys.init_stack hf]
    trivial
  · simp only [Sys.init, if_true]
    trivial
  · rw [hproc] at hpar
    cases hpar
  · rw [show ((Sys.init m n p).proc q).state = .unused by
      exact congrArg Proc.state (if_neg hq)] at hborn
    exact hborn.elim
  · rw [hproc] at hpar
    cases hpar

end Xv6
