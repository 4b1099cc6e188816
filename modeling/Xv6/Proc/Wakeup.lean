import Xv6.Proc.Clients

/-!
# No lost wakeup

A consumer is dozing on `chan` only after it has found the condition false under
`lk`.  A producer that has set the condition meets every dozing process in its
scan: it has `lk`, so no process begins to doze, and it takes the lock of each
process, so it finds the process asleep.
-/

namespace Xv6

variable {m n : Nat} {k : Nat} {chan : Chan n} {s s' : Clients m n} {c : Fin m} {p q : Fin n}
  {r : Role} {a : SchedAct m n}

/-! ## The invariant -/

/-- How far the `wakeup` of a producer has come. -/
def progress : List (Frame n) → Nat
  | .wakeup _ pc :: _ => pc.progress
  | _ => n

/-- Who dozes on the channel. -/
structure Alert (k : Nat) (chan : Chan n) (s : Clients m n) : Prop where
  /-- A consumer calls `sleep` when the condition is false. -/
  tested : ∀ p pc, s.sys.stack (.proc p) = [.sleep p chan (.other k) pc] → pc.locked = true →
    s.cond = false
  /-- If the condition is true and no producer is at work, no process dozes. -/
  quiet : s.cond = true → (∀ p, s.role p ≠ .wake ∧ s.role p ≠ .woken) →
    ∀ q, ¬ s.sys.Dozes chan q
  /-- The processes that a producer has passed do not doze. -/
  scanned : ∀ p, s.role p = .woken → ∀ q : Fin n, q < progress (s.sys.stack (.proc p)) →
    ¬ s.sys.Dozes chan q

section Dozing

variable {x y : Sys m n} {f : Frame n} {rest : List (Frame n)}

theorem dozes_of_same (hcur : ∀ c, (y.cpu c).cur = (x.cpu c).cur) (hst : y.stack = x.stack)
    (hproc : y.proc = x.proc) (h : y.Dozes chan q) : x.Dozes chan q := by
  rcases h with h | ⟨c, f, rest, hc, hq, hf⟩
  · rw [hproc] at h
    exact .inl h
  · rw [hcur] at hc
    rw [hst] at hq
    exact .inr ⟨c, f, rest, hc, hq, hf⟩

theorem SchedInv.dozes_setStack (hx : SchedInv x) {fs : List (Frame n)}
    (hfs : ∀ f rest, fs = f :: rest → ¬ f.Entering chan)
    (h : (x.setStack (x.thread c) fs).Dozes chan q) : x.Dozes chan q := by
  rcases h with h | ⟨c', f, rest, hc, hq, hf⟩
  · exact .inl h
  · change (x.cpu c').cur = some q at hc
    by_cases hcc : c' = c
    · subst hcc
      rw [thread_eq_proc.mpr hc, Sys.stack_setStack_self] at hq
      exact absurd hf (hfs f rest hq)
    · have hne : Thread.proc q ≠ x.thread c := fun ht => by
        rw [← thread_eq_proc.mpr hc] at ht
        exact hcc (hx.thread_inj ht)
      rw [Sys.stack_setStack_of_ne _ hne] at hq
      exact .inr ⟨c', f, rest, hc, hq, hf⟩

/-- A process on a CPU that is not in `sleep` does not doze. -/
theorem SchedInv.not_dozes_of_cur (hx : SchedInv x) (hp : (x.cpu c).cur = some p)
    (hst : x.stack (.proc p) = f :: rest) (hown : f.own = .running) (hf : ¬ f.Entering chan) :
    ¬ x.Dozes chan p := by
  rintro (⟨hs, -⟩ | ⟨c', g, rest', -, hg, he⟩)
  · rw [hx.state_of_cur hp hst, hown] at hs
    cases hs
  · rw [hst] at hg
    cases hg
    exact hf he

/-- Under the lock of a process that is not on the CPU, dozing is sleeping. -/
theorem SchedInv.asleep_of_lock (hx : SchedInv x) (hst : x.stack (x.thread c) = f :: rest)
    (hf : f.holds = some q) (hq : (x.cpu c).cur ≠ some q) (h : x.Dozes chan q) :
    (x.proc q).Asleep chan := by
  rcases h with h | ⟨c', g, rest', hc', hg, he⟩
  · exact h
  · have hlock : (.proc q, c) ∈ x.locks := by
      rw [hx.locks.held, hst]
      exact hf
    have hlock' : (.proc q, c') ∈ x.locks := by
      rw [hx.locks.held, stack_of_cur hc', hg]
      have hruns := hx.frames.runsOn (.proc q) g (mem_top hg)
      cases g with
      | sleep p ch lk pc =>
          cases hruns.1
          cases pc <;> first | rfl | exact he.elim
      | _ => exact he.elim
    cases hx.locks.one.holder_eq hlock hlock'
    exact absurd hc' hq

end Dozing

/-! ## An instruction -/

section Run

variable {ok : Bool} {f : Frame n} {rest : List (Frame n)} {t : Sys m n}

/-- A process that gives up the lock in `sleep` had it, and found the condition
false. -/
theorem Alert.enters (h : ClientInv k chan s) (ha : Alert k chan s)
    (hst : s.sys.stack (.proc q) = f :: rest) {lk : Lock n} (hf : f = .sleep q chan lk .releaseLk) :
    s.cond = false ∧ s.sys.Holds (.other k) q := by
  obtain ⟨b, hstage, hiff⟩ := h.stage q
  have htested := ha.tested q .releaseLk
  rw [hst] at hstage htested
  subst hf
  generalize hfs : Frame.sleep q chan lk .releaseLk :: rest = fs at hstage
  generalize s.role q = r at hstage
  cases hstage with
  | idle hff =>
      subst hfs
      exact absurd rfl (hff _ List.mem_cons_self).1
  | sleep pc =>
      cases hfs
      exact ⟨htested rfl rfl, hiff.mp rfl⟩
  | @intr fs hi =>
      cases fs with
      | nil => cases hfs
      | cons g fs =>
          cases hfs
          exact (hi _ List.mem_cons_self).elim
  | _ => cases hfs

/-- A point of `sleep` with the lock comes after another one. -/
theorem Alert.tested_run (h : ClientInv k chan s) (ha : Alert k chan s)
    (hst : s.sys.stack (.proc p) = f :: rest) (hd : Does s.sys f (code s.sys c ok f)) {pc : SleepPc}
    (hnext : (code s.sys c ok f).next ++ rest = [.sleep p chan (.other k) pc])
    (hpc : pc.locked = true) : s.cond = false := by
  cases hn : (code s.sys c ok f).next with
  | nil =>
      -- the frame above was an interrupt, so `sleep` is past the lock
      rw [hn, List.nil_append] at hnext
      subst hnext
      obtain ⟨b, hstage, -⟩ := h.stage p
      rw [hst] at hstage
      generalize hfs : f :: [Frame.sleep p chan (.other k) pc] = fs at hstage
      generalize s.role p = r at hstage
      cases hstage with
      | idle hff =>
          subst hfs
          exact absurd rfl (hff (.sleep p chan (.other k) pc) (by simp)).1
      | @intr fs hi =>
          cases fs with
          | nil => cases hfs
          | cons g fs =>
              rw [List.cons_append] at hfs
              have hlast := congrArg List.getLast? (List.cons.inj hfs).2
              rw [List.getLast?_concat] at hlast
              cases hlast
              cases hpc
      | _ => cases hfs
  | cons g next =>
      rw [hn] at hnext
      obtain ⟨rfl, hrest⟩ := List.cons.inj hnext
      obtain ⟨rfl, rfl⟩ := List.append_eq_nil_iff.mp hrest
      have hmem : Frame.sleep p chan (.other k) pc ∈ (code s.sys c ok f).next := by
        rw [hn]
        exact List.mem_cons_self
      have hl := hd.leads _ hmem
      cases hl with
      | sleep p chan lk pc₀ =>
          cases pc₀ with
          | acquire => exact ha.tested _ _ hst rfl
          | acquireLk => cases hmem
          | _ =>
              cases List.mem_singleton.mp hmem
              cases hpc

/-- A step of a `wakeup` that begins no doze: a process that the scan has now
passed was passed before, or does not doze. -/
theorem SchedInv.scanned {x : Sys m n} (hx : SchedInv x) (hp : (x.cpu c).cur = some p)
    {pc : WakeupPc n} (hst : x.stack (.proc p) = .wakeup chan pc :: rest) (ht : SchedInv t)
    (hd : Does x (.wakeup chan pc) (wakeupCode x (x.cpu c).proc chan pc))
    (he : Effects x t c (x.thread c) rest (wakeupCode x (x.cpu c).proc chan pc))
    (hdoze : ∀ q, t.Dozes chan q → x.Dozes chan q)
    (hsub : q < pc.progress ∨ (x.cpu c).proc = some q ∨ pc = .test q) :
    q < pc.progress ∨ ¬ t.Dozes chan q := by
  have hst' : x.stack (x.thread c) = .wakeup chan pc :: rest := by rw [stack_of_cur hp, hst]
  have hself := hx.self_stack hst' hd he
  rw [thread_eq_proc.mpr hp] at hself
  have hself' : ¬ x.Dozes chan p := hx.not_dozes_of_cur hp hst rfl id
  rcases hsub with hlt | hme | rfl
  · exact .inl hlt
  · rw [hx.proc_of_cur hp] at hme
    cases hme
    exact .inr fun hq' => hself' (hdoze p hq')
  · refine .inr fun hq' => ?_
    by_cases hpq : p = q
    · subst hpq
      exact hself' (hdoze p hq')
    · have hcur : (t.cpu c).cur = some p := by
        rw [he.cur, hp]
        exact wakeupCode_cur ..
      have hnext : (wakeupCode x (x.cpu c).proc chan (.test q)).next =
          [.wakeup chan (.release q)] := by
        simp only [wakeupCode]
        split <;> rfl
      have htop : t.stack (t.thread c) = .wakeup chan (.release q) :: rest := by
        rw [stack_of_cur hcur, hself, hnext]
        rfl
      have hne : (t.cpu c).cur ≠ some q := by
        rw [hcur]
        simpa using hpq
      have hasleep := ht.asleep_of_lock htop rfl hne hq'
      by_cases hs : (x.proc q).state = .sleeping ∧ (x.proc q).chan = chan
      · have hcode : wakeupCode x (x.cpu c).proc chan (.test q) =
            .store q (fun r => { r with state := .runnable }) [.wakeup chan (.release q)] := by
          simp only [wakeupCode]
          rw [if_pos hs]
        rw [he.store q _ _ hcode] at hasleep
        cases hasleep.1
      · have hcode : wakeupCode x (x.cpu c).proc chan (.test q) =
            .goto [.wakeup chan (.release q)] := by
          simp only [wakeupCode]
          rw [if_neg hs]
        rw [he.proc q (by rw [hcode]; simp)] at hasleep
        exact hs hasleep

/-- The scan of a producer. -/
theorem Alert.scan (h : ClientInv k chan s) (ha : Alert k chan s) (hr : s.role p = .woken)
    (hp : (s.sys.cpu c).cur = some p) {pc : WakeupPc n}
    (hst : s.sys.stack (.proc p) = [.wakeup chan pc]) (ht : SchedInv t)
    (hd : Does s.sys (.wakeup chan pc) (wakeupCode s.sys (s.sys.cpu c).proc chan pc))
    (he : Effects s.sys t c (s.sys.thread c) [] (wakeupCode s.sys (s.sys.cpu c).proc chan pc))
    (hdoze : ∀ q, t.Dozes chan q → s.sys.Dozes chan q) (hq : q < progress (t.stack (.proc p))) :
    ¬ t.Dozes chan q := by
  have hst' : s.sys.stack (s.sys.thread c) = [.wakeup chan pc] := by rw [stack_of_cur hp, hst]
  have hself := h.base.self_stack hst' hd he
  rw [thread_eq_proc.mpr hp, List.append_nil] at hself
  have hold : q < pc.progress → ¬ t.Dozes chan q := fun hlt hq' =>
    ha.scanned p hr q (by rw [hst]; exact hlt) (hdoze q hq')
  rcases wakeupCode_next s.sys (s.sys.cpu c).proc chan pc with ⟨-, hn⟩ | ⟨pc', hnext, hsub⟩
  · exact hold (Nat.lt_of_lt_of_le q.isLt hn)
  · rw [hself, hnext] at hq
    rcases h.base.scanned hp hst ht hd he hdoze (hsub q hq) with hlt | hno
    · exact hold hlt
    · exact hno

theorem Alert.run (h : ClientInv k chan s) (ha : Alert k chan s)
    (hs' : schedAct s.sys (.run c ok) = some t) : Alert k chan { s with sys := t } := by
  have ht := h.base.act hs'
  rcases h.base.run_effects hs' with ⟨e, rfl⟩ | ⟨f, rest, hst, hd, he⟩
  · exact ⟨ha.tested, ha.quiet, ha.scanned⟩
  · have hdz := fun q (hq : t.Dozes chan q) => h.base.dozes_step h.chanSet hst hd he hq
    have henter : ∀ q, (s.sys.cpu c).cur = some q → (∃ lk, f = .sleep q chan lk .releaseLk) →
        s.cond = false ∧ s.sys.Holds (.other k) q := by
      rintro q hq ⟨lk, hf⟩
      rw [stack_of_cur hq] at hst
      exact ha.enters h hst hf
    refine ⟨fun p pc hp hpc => ?_, fun hcond hroles q hq => ?_, fun p hr q hq => ?_⟩
    · show s.cond = false
      by_cases hcur : (s.sys.cpu c).cur = some p
      · have hself := h.base.self_stack hst hd he
        rw [thread_eq_proc.mpr hcur] at hself
        rw [stack_of_cur hcur] at hst
        exact ha.tested_run h hst hd (hself.symm.trans hp) hpc
      · rcases h.base.other_stack hst hd he hcur with hsame | ⟨-, hfork⟩
        · exact ha.tested p pc (hsame.symm.trans hp) hpc
        · cases hfork.symm.trans hp
    · rcases hdz q hq with hq' | ⟨hcur, hf⟩
      · exact ha.quiet hcond hroles q hq'
      · have hfalse := (henter q hcur hf).1
        rw [show s.cond = true from hcond] at hfalse
        cases hfalse
    · change s.role p = .woken at hr
      obtain ⟨b, hstage, hiff⟩ := h.stage p
      by_cases hcur : (s.sys.cpu c).cur = some p
      · rw [stack_of_cur hcur] at hst
        rw [hst, hr] at hstage
        cases hstage with
        | waking pc =>
            refine ha.scan h hr hcur hst ht hd he (fun q hq => ?_) hq
            rcases hdz q hq with hq' | ⟨-, lk, hf⟩
            · exact hq'
            · cases hf
      · have hsame : t.stack (.proc p) = s.sys.stack (.proc p) := by
          rcases h.base.other_stack hst hd he hcur with hsame | ⟨hused, -⟩
          · exact hsame
          · have := h.live p (by rw [hr]; simp)
            rw [hused] at this
            exact this.elim
        change q < progress (t.stack (.proc p)) at hq
        rw [hsame] at hq
        intro hq'
        rcases hdz q hq' with hq' | ⟨hcur', hf⟩
        · exact ha.scanned p hr q hq hq'
        · -- a process that begins to doze has the lock, and so does the producer
          have hholds : s.sys.Holds (.other k) p := by
            rw [hr] at hstage
            generalize s.sys.stack (.proc p) = st at hstage
            cases hstage <;> exact hiff.mp rfl
          have := hholds.eq h.base (henter q hcur' hf).2
          subst this
          exact hcur hcur'

end Run

/-! ## The other steps -/

/-- A process that is no producer at work moves, and no process begins to doze. -/
theorem Alert.move (ha : Alert k chan s) {sys : Sys m n}
    (hdoze : ∀ q, sys.Dozes chan q → s.sys.Dozes chan q)
    (hold : s.role p ≠ .wake ∧ s.role p ≠ .woken) (hnew : r ≠ .woken)
    (hst : ∀ q, q ≠ p → sys.stack (.proc q) = s.sys.stack (.proc q))
    (htested : ∀ pc, sys.stack (.proc p) = [.sleep p chan (.other k) pc] → pc.locked = true →
      s.cond = false) : Alert k chan ⟨sys, s.cond, Function.update s.role p r⟩ := by
  refine ⟨fun q pc hq hpc => ?_, fun hcond hroles q hq => ?_, fun q hq r' hr' => ?_⟩
  · show s.cond = false
    by_cases hqp : q = p
    · subst hqp
      exact htested pc hq hpc
    · exact ha.tested q pc ((hst q hqp).symm.trans hq) hpc
  · refine ha.quiet hcond (fun q' => ?_) q (hdoze q hq)
    by_cases hqp : q' = p
    · rw [hqp]
      exact hold
    · have := hroles q'
      change Function.update s.role p r q' ≠ _ ∧ Function.update s.role p r q' ≠ _ at this
      rwa [Function.update_of_ne hqp] at this
  · change Function.update s.role p r q = .woken at hq
    change r' < progress (sys.stack (.proc q)) at hr'
    by_cases hqp : q = p
    · rw [hqp, Function.update_self] at hq
      exact absurd hq hnew
    · rw [Function.update_of_ne hqp] at hq
      rw [hst q hqp] at hr'
      exact fun hd => ha.scanned q hq r' hr' (hdoze r' hd)

theorem ClientInv.holds_of_woken (h : ClientInv k chan s) (hr : s.role p = .woken) :
    s.sys.Holds (.other k) p := by
  obtain ⟨b, hstage, hiff⟩ := h.stage p
  rw [hr] at hstage
  generalize s.sys.stack (.proc p) = st at hstage
  cases hstage <;> exact hiff.mp rfl

theorem Alert.interrupt (h : ClientInv k chan s) (ha : Alert k chan s)
    (hn : (s.sys.cpu c).noff = 0) {g : Frame n} (hg : g.Intr) :
    Alert k chan
      { s with sys := s.sys.setStack (s.sys.thread c) (g :: s.sys.stack (s.sys.thread c)) } := by
  have hent : ¬ g.Entering chan := by
    cases g with
    | sleep => exact hg.elim
    | _ => exact id
  have hdoze := fun q (hq : (s.sys.setStack (s.sys.thread c)
      (g :: s.sys.stack (s.sys.thread c))).Dozes chan q) =>
    h.base.dozes_setStack (fun f rest he => by cases he; exact hent) hq
  have hother : ∀ q, (s.sys.cpu c).cur ≠ some q → (s.sys.setStack (s.sys.thread c)
      (g :: s.sys.stack (s.sys.thread c))).stack (.proc q) = s.sys.stack (.proc q) := fun q hq =>
    Sys.stack_setStack_of_ne _ (fun ht => hq (thread_eq_proc.mp ht.symm)) _
  refine ⟨fun q pc hq hpc => ?_, fun hcond hroles q hq => ha.quiet hcond hroles q (hdoze q hq),
    fun q hq r hr hd => ?_⟩
  · by_cases hcur : (s.sys.cpu c).cur = some q
    · change (s.sys.setStack (s.sys.thread c) (g :: s.sys.stack (s.sys.thread c))).stack _ = _ at hq
      rw [← thread_eq_proc.mpr hcur, Sys.stack_setStack_self] at hq
      obtain ⟨rfl, -⟩ := List.cons.inj hq
      exact hg.elim
    · exact ha.tested q pc ((hother q hcur).symm.trans hq) hpc
  · change r < progress ((s.sys.setStack (s.sys.thread c)
      (g :: s.sys.stack (s.sys.thread c))).stack (.proc q)) at hr
    have hcur : (s.sys.cpu c).cur ≠ some q := by
      intro hcur
      rw [h.base.locks.noff] at hn
      exact Spin.Held.notMem_of_count_zero hn _ ((h.mem_iff hcur).mp (h.holds_of_woken hq))
    rw [hother q hcur] at hr
    exact ha.scanned q hq r hr (hdoze r hd)

/-- The invariant of the clients. -/
structure WakeInv (k : Nat) (chan : Chan n) (s : Clients m n) : Prop where
  client : ClientInv k chan s
  alert : Alert k chan s

theorem WakeInv.init (m n : Nat) (k : Nat) (chan : Chan n) (initproc : Fin n) (cond : Bool) :
    WakeInv k chan (Clients.init m n initproc cond) := by
  have hb := SchedInv.init m n initproc
  refine ⟨⟨hb, fun c p _ _ _ hc => (by cases hc), fun p => ⟨false, .idle fun f hf => ?_, ?_⟩,
    fun p hp => absurd rfl hp, fun c hc => (by cases hc)⟩,
    ⟨fun p pc hp => ?_, fun _ _ q => ?_, fun p hp => (by cases hp)⟩⟩
  · rw [Sys.init_stack hf]
    trivial
  · refine ⟨fun hx => (by cases hx), ?_⟩
    rintro ⟨c, hc, -⟩
    cases hc
  · have hm : .sleep p chan (.other k) pc ∈ (Sys.init m n initproc).stack (.proc p) := by
      rw [show (Sys.init m n initproc).stack (.proc p) = _ from hp]
      exact List.mem_singleton_self _
    cases Sys.init_stack hm
  · rintro (⟨hs, -⟩ | ⟨c, f, rest, hc, -⟩)
    · simp only [Clients.init, Sys.init] at hs
      split at hs <;> cases hs
    · cases hc

theorem ClientInv.notMem_of_idle (h : ClientInv k chan s) (hp : (s.sys.cpu c).cur = some p)
    (hr : s.role p = .idle) : (.other k, c) ∉ s.sys.locks := by
  obtain ⟨b, hstage, hiff⟩ := h.stage_of hp
  rw [hr] at hstage
  cases hstage
  exact fun hm => by cases hiff.mpr hm

/-- A process whose stack is empty is at a stage with the lock, unless it is idle. -/
theorem ClientInv.mem_of_nil (h : ClientInv k chan s) (hp : (s.sys.cpu c).cur = some p)
    (hnil : s.sys.stack (.proc p) = []) (hr : s.role p ≠ .idle) : (.other k, c) ∈ s.sys.locks := by
  obtain ⟨b, hstage, hiff⟩ := h.stage_of hp
  rw [hnil] at hstage
  generalize s.role p = r at hstage hr
  generalize hst : ([] : List (Frame n)) = st at hstage
  cases hstage with
  | idle => exact absurd rfl hr
  | sleep => cases hst
  | @intr fs _ => cases fs <;> cases hst
  | waking => cases hst
  | _ => exact hiff.mp rfl

/-- A call by a client that is no producer at work. -/
theorem WakeInv.call (h : WakeInv k chan s) (hp : (s.sys.cpu c).cur = some p) {f : Call n}
    {sys : Sys m n} (hs' : schedAct s.sys (.call c f) = some sys) {b : Bool}
    (hstage : Stage k chan p r [Call.frame p f] b) (hsame : Stage k chan p r [] b)
    (hiff : b = true ↔ (.other k, c) ∈ s.sys.locks) (hold : s.role p ≠ .wake ∧ s.role p ≠ .woken)
    (hnew : r ≠ .woken)
    (htested : ∀ pc, Call.frame p f = .sleep p chan (.other k) pc → s.cond = false) :
    WakeInv k chan ⟨sys, s.cond, Function.update s.role p r⟩ := by
  obtain ⟨hc, ha⟩ := h
  obtain ⟨hnil, heff⟩ := call_effects (hc.base.proc_of_cur hp) hs'
  rw [stack_of_cur hp] at hnil
  refine ⟨hc.call hp hnil hs' hstage hsame hiff s.cond, ?_⟩
  rcases heff with ⟨e, -, -, rfl⟩ | rfl
  · exact ha.move (fun q => dozes_of_same (fun _ => rfl) rfl rfl) hold hnew (fun _ _ => rfl)
      fun pc hpc => ha.tested p pc hpc
  · refine ha.move (fun q => hc.base.dozes_setStack fun g rest he => ?_) hold hnew (fun q hq => ?_)
      fun pc hpc _ => ?_
    · cases he
      cases f <;> exact id
    · exact Sys.stack_setStack_of_ne _ (by rw [thread_eq_proc.mpr hp]; simpa using hq) _
    · rw [← thread_eq_proc.mpr hp, Sys.stack_setStack_self] at hpc
      exact htested pc (List.cons.inj hpc).1

/-- A step that changes the locks only. -/
theorem Alert.sameStack (ha : Alert k chan s) {sys : Sys m n}
    (hcur : ∀ c, (sys.cpu c).cur = (s.sys.cpu c).cur) (hst : sys.stack = s.sys.stack)
    (hproc : sys.proc = s.sys.proc) (hold : s.role p ≠ .wake ∧ s.role p ≠ .woken)
    (hnew : r ≠ .woken) : Alert k chan ⟨sys, s.cond, Function.update s.role p r⟩ :=
  ha.move (fun _ => dozes_of_same hcur hst hproc) hold hnew (fun _ _ => by rw [hst])
    fun pc hpc => ha.tested p pc (by rw [← hst]; exact hpc)

/-- The effects of acquiring or releasing a lock of other code between calls. -/
theorem lock_effects {x y : Sys m n} {k' : Nat}
    (hs' : schedAct x (.acquire c k') = some y ∨ schedAct x (.release c k') = some y) :
    (∀ c', (y.cpu c').cur = (x.cpu c').cur) ∧ y.stack = x.stack ∧ y.proc = x.proc ∧
      Beside k x y c ∧ (k' ≠ k → ((.other k, c) ∈ y.locks ↔ (.other k, c) ∈ x.locks)) := by
  have hhalt : ∀ e, (∀ c', ((x.halt e).cpu c').cur = (x.cpu c').cur) ∧ (x.halt e).stack = x.stack ∧
      (x.halt e).proc = x.proc ∧ Beside k x (x.halt e) c ∧
      (k' ≠ k → ((.other k, c) ∈ (x.halt e).locks ↔ (.other k, c) ∈ x.locks)) := fun e =>
    ⟨fun _ => rfl, rfl, rfl, ⟨fun _ _ => rfl, fun _ _ => Iff.rfl, fun _ _ => .inl rfl,
      fun _ _ => id, fun _ hn he => absurd he hn⟩, fun _ => Iff.rfl⟩
  rcases hs' with hs' | hs'
  · simp only [schedAct, Sys.acquire] at hs'
    split at hs'
    · split at hs'
      · cases hs'
        exact hhalt _
      · split at hs'
        · cases hs'
          refine ⟨fun c' => cur_lock .., rfl, rfl, .lock .., fun hne => ?_⟩
          simp [Sys.lock, hne.symm]
        · cases hs'
    · cases hs'
  · simp only [schedAct, Sys.release] at hs'
    split at hs'
    · split at hs'
      · cases hs'
        refine ⟨fun c' => cur_unlock .., rfl, rfl, .unlock .., fun hne => ?_⟩
        exact List.mem_erase_of_ne (by simp [hne.symm])
      · cases hs'
        exact hhalt _
    · cases hs'

/-- A step of the system that is none of the protocol. -/
theorem WakeInv.sys (h : WakeInv k chan s) (hallow : s.Allows k chan a) {sys : Sys m n}
    (hs' : schedAct s.sys a = some sys) : WakeInv k chan { s with sys := sys } := by
  have hc := h.client
  have ha := h.alert
  have hb := hc.base.act hs'
  have hlocks : ∀ {c : Fin m} {k' : Nat} {p : Fin n}, (s.sys.cpu c).cur = some p →
      s.role p = .idle → k' ≠ k →
      (schedAct s.sys (.acquire c k') = some sys ∨ schedAct s.sys (.release c k') = some sys) →
      WakeInv k chan { s with sys := sys } := by
    intro c k' p hp hr hk hs'
    obtain ⟨hcur, hst, hproc, hbe, hl⟩ := lock_effects (k := k) hs'
    have hal := ha.sameStack (p := p) (r := .idle) hcur hst hproc (by rw [hr]; simp) (by simp)
    rw [Function.update_eq_self_iff.mpr hr.symm] at hal
    exact ⟨hc.other hp hr hb hbe hcur hst hproc (hl hk), hal⟩
  cases a with
  | run c ok => exact ⟨hc.run hs', ha.run hc hs'⟩
  | call c f =>
      obtain ⟨p, hp, hr, hav⟩ := hallow
      have hnot := hc.notMem_of_idle hp hr
      have hcall := h.call (r := .idle) (b := false) hp hs' (.idle fun g hg => ?_)
        (.idle fun g hg => (by cases hg)) ⟨fun hx => (by cases hx), fun hx => absurd hx hnot⟩
        (by rw [hr]; simp) (by simp) fun pc hpc => ?_
      · rwa [Function.update_eq_self_iff.mpr hr.symm] at hcall
      · cases List.mem_singleton.mp hg
        cases f with
        | sleep chan' k' => exact ⟨hav.1, by simpa using hav.2⟩
        | wait => exact hav
        | _ => trivial
      · cases f with
        | sleep chan' k' =>
            cases hpc
            exact absurd rfl hav.1
        | _ => cases hpc
  | acquire c k' =>
      obtain ⟨p, hp, hr, hk⟩ := hallow
      exact hlocks hp hr hk (.inl hs')
  | release c k' =>
      obtain ⟨p, hp, hr, hk⟩ := hallow
      exact hlocks hp hr hk (.inr hs')
  | timer c =>
      simp only [schedAct] at hs'
      split at hs'
      · rename_i hn
        split at hs'
        · cases hs'
        · cases hs'
          exact ⟨hc.interrupt hn trivial hb, ha.interrupt hc hn trivial⟩
      · cases hs'
  | intr c chan' =>
      simp only [schedAct] at hs'
      split at hs'
      · rename_i hn
        cases hs'
        exact ⟨hc.interrupt hn trivial hb, ha.interrupt hc hn trivial⟩
      · cases hs'

/-! ## The protocol -/

section Protocol

variable {sys : Sys m n} {r : Role}

theorem WakeInv.acquire (h : WakeInv k chan s) (hturn : s.Turn c p .idle)
    (hs' : schedAct s.sys (.acquire c k) = some sys) (hstage : Stage k chan p r [] true)
    (hr : r ≠ .woken) : WakeInv k chan ⟨sys, s.cond, Function.update s.role p r⟩ := by
  obtain ⟨-, hp, hnil, hidle⟩ := hturn
  obtain ⟨hcur, hst, hproc, -⟩ := lock_effects (k := k) (.inl hs')
  exact ⟨h.client.acquire hp hnil (h.client.notMem_of_idle hp hidle) hs' hstage s.cond,
    h.alert.sameStack hcur hst hproc (by rw [hidle]; simp) hr⟩

/-- The role of a client changes and the system does not. -/
theorem ClientInv.setRole (h : ClientInv k chan s) (hp : (s.sys.cpu c).cur = some p)
    (hnil : s.sys.stack (.proc p) = []) (hidle : s.role p ≠ .idle)
    (hstage : Stage k chan p r [] true) (cond : Bool) :
    ClientInv k chan ⟨s.sys, cond, Function.update s.role p r⟩ :=
  h.move hp h.base h.chanSet (.refl ..) hp (by rw [← hnil] at hstage; exact hstage)
    ⟨fun _ => h.mem_of_nil hp hnil hidle, fun _ => rfl⟩ (fun _ => h.base.live_of_nil hp hnil) cond

/-- A consumer finds the condition true. -/
theorem WakeInv.testTrue (h : WakeInv k chan s) (hturn : s.Turn c p .loop) :
    WakeInv k chan { s with role := Function.update s.role p .done } := by
  obtain ⟨-, hp, hnil, hr⟩ := hturn
  exact ⟨h.client.setRole hp hnil (by rw [hr]; simp) .done s.cond,
    h.alert.sameStack (fun _ => rfl) rfl rfl (by rw [hr]; simp) (by simp)⟩

/-- A consumer finds the condition false and calls `sleep`. -/
theorem WakeInv.testFalse (h : WakeInv k chan s) (hturn : s.Turn c p .loop)
    (hcond : s.cond = false) (hs' : schedAct s.sys (.call c (.sleep chan k)) = some sys) :
    WakeInv k chan ⟨sys, s.cond, Function.update s.role p .loop⟩ := by
  obtain ⟨-, hp, hnil, hr⟩ := hturn
  have hmem := h.client.mem_of_nil hp hnil (by rw [hr]; simp)
  exact h.call hp hs' (.sleep .acquire) .test ⟨fun _ => hmem, fun _ => rfl⟩ (by rw [hr]; simp)
    (by simp) fun _ _ => hcond

theorem WakeInv.clear (h : WakeInv k chan s) : WakeInv k chan { s with cond := false } :=
  ⟨⟨h.client.base, h.client.chanSet, h.client.stage, h.client.live, h.client.held⟩,
    ⟨fun _ _ _ _ => rfl, fun hc => (by cases hc), h.alert.scanned⟩⟩

/-- A producer is alone with the lock. -/
theorem ClientInv.not_woken (h : ClientInv k chan s) (hp : s.sys.Holds (.other k) p)
    (hqp : q ≠ p) : s.role q ≠ .woken := fun hq => hqp ((h.holds_of_woken hq).eq h.base hp)

/-- `cond = 1`. -/
theorem WakeInv.set (h : WakeInv k chan s) (hturn : s.Turn c p .set) :
    WakeInv k chan { s with cond := true, role := Function.update s.role p .wake } := by
  obtain ⟨-, hp, hnil, hr⟩ := hturn
  have hidle : s.role p ≠ .idle := by rw [hr]; simp
  have hmem := h.client.mem_of_nil hp hnil hidle
  have hholds : s.sys.Holds (.other k) p := ⟨c, hp, hmem⟩
  refine ⟨h.client.setRole hp hnil hidle .wake true, ⟨fun q pc hq hpc => ?_, fun _ hroles => ?_,
    fun q hq => ?_⟩⟩
  · -- another process in its call of `sleep` would have the lock
    obtain ⟨b, hstage, hiff⟩ := h.client.stage q
    change s.sys.stack (.proc q) = _ at hq
    rw [hq] at hstage
    have hq' : s.sys.Holds (.other k) q := by
      generalize hst : [Frame.sleep q chan (.other k) pc] = st at hstage
      generalize s.role q = r at hstage
      cases hstage with
      | idle hf =>
          subst hst
          exact absurd rfl (hf _ (List.mem_singleton_self _)).1
      | sleep => cases hst; exact hiff.mp hpc
      | @intr fs hfs =>
          cases fs with
          | nil => cases hst; cases hpc
          | cons g fs => cases fs <;> cases hst
      | _ => cases hst
    cases hq'.eq h.client.base hholds
    rw [hnil] at hq
    cases hq
  · have := (hroles p).1
    change Function.update s.role p .wake p ≠ .wake at this
    rw [Function.update_self] at this
    exact absurd rfl this
  · change Function.update s.role p .wake q = .woken at hq
    by_cases hqp : q = p
    · rw [hqp, Function.update_self] at hq
      cases hq
    · rw [Function.update_of_ne hqp] at hq
      exact absurd hq (h.client.not_woken hholds hqp)

/-- A producer calls `wakeup`. -/
theorem WakeInv.wakeup (h : WakeInv k chan s) (hturn : s.Turn c p .wake)
    (hs' : schedAct s.sys (.call c (.wakeup chan)) = some sys) :
    WakeInv k chan ⟨sys, s.cond, Function.update s.role p .woken⟩ := by
  obtain ⟨-, hp, hnil, hr⟩ := hturn
  have hidle : s.role p ≠ .idle := by rw [hr]; simp
  have hmem := h.client.mem_of_nil hp hnil hidle
  have hholds : s.sys.Holds (.other k) p := ⟨c, hp, hmem⟩
  refine ⟨h.client.call hp hnil hs' (.waking (.next 0)) .woken ⟨fun _ => hmem, fun _ => rfl⟩ s.cond,
    ?_⟩
  rcases (call_effects (h.client.base.proc_of_cur hp) hs').2 with ⟨e, status, hx, -⟩ | rfl
  · cases hx
  · have hself : (s.sys.setStack (s.sys.thread c) [Call.frame p (.wakeup chan)]).stack (.proc p) =
        [.wakeup chan (.next 0)] := by
      rw [← thread_eq_proc.mpr hp, Sys.stack_setStack_self]
      rfl
    refine ⟨fun q pc hq hpc => ?_, fun _ hroles => ?_, fun q hq r hlt => ?_⟩
    · by_cases hqp : q = p
      · subst hqp
        cases hself.symm.trans hq
      · refine h.alert.tested q pc ((Sys.stack_setStack_of_ne _ ?_ _).symm.trans hq) hpc
        rw [thread_eq_proc.mpr hp]
        simpa using hqp
    · have := (hroles p).2
      change Function.update s.role p .woken p ≠ .woken at this
      rw [Function.update_self] at this
      exact absurd rfl this
    · change Function.update s.role p .woken q = .woken at hq
      by_cases hqp : q = p
      · subst hqp
        change r < progress ((s.sys.setStack (s.sys.thread c)
          [Call.frame q (.wakeup chan)]).stack (.proc q)) at hlt
        rw [hself] at hlt
        exact absurd hlt (Nat.not_lt_zero _)
      · rw [Function.update_of_ne hqp] at hq
        exact absurd hq (h.client.not_woken hholds hqp)

/-- A client releases the lock.  After a `wakeup` no process dozes. -/
theorem WakeInv.release (h : WakeInv k chan s) (hturn : s.Turn c p .done ∨ s.Turn c p .woken)
    (hs' : schedAct s.sys (.release c k) = some sys) :
    WakeInv k chan ⟨sys, s.cond, Function.update s.role p .idle⟩ := by
  obtain ⟨hcur, hst, hproc, -⟩ := lock_effects (k := k) (.inr hs')
  have hdoze : ∀ q, sys.Dozes chan q → s.sys.Dozes chan q := fun _ => dozes_of_same hcur hst hproc
  rcases hturn with ⟨-, hp, hnil, hr⟩ | ⟨-, hp, hnil, hr⟩
  · have hmem := h.client.mem_of_nil hp hnil (by rw [hr]; simp)
    exact ⟨h.client.release hp hnil hmem hs' s.cond,
      h.alert.sameStack hcur hst hproc (by rw [hr]; simp) (by simp)⟩
  · have hmem := h.client.mem_of_nil hp hnil (by rw [hr]; simp)
    refine ⟨h.client.release hp hnil hmem hs' s.cond, ⟨fun q pc hq hpc => ?_, fun _ _ q hq => ?_,
      fun q hq => ?_⟩⟩
    · exact h.alert.tested q pc (by rw [← hst]; exact hq) hpc
    · exact h.alert.scanned p hr q (by rw [hnil]; exact q.isLt) (hdoze q hq)
    · change Function.update s.role p .idle q = .woken at hq
      by_cases hqp : q = p
      · rw [hqp, Function.update_self] at hq
        cases hq
      · rw [Function.update_of_ne hqp] at hq
        exact absurd hq (h.client.not_woken ⟨c, hp, hmem⟩ hqp)

end Protocol

theorem withRole_eq (hs' : s.withRole a p r = some s') :
    ∃ sys, schedAct s.sys a = some sys ∧ s' = ⟨sys, s.cond, Function.update s.role p r⟩ := by
  unfold Clients.withRole schedStep at hs'
  split at hs'
  · obtain ⟨sys, hsys, rfl⟩ := Option.map_eq_some_iff.mp hs'
    exact ⟨sys, hsys, rfl⟩
  · cases hs'

theorem WakeInv.step (h : WakeInv k chan s) {a : ClientAct m n}
    (hs' : clientStep k chan s a = some s') : WakeInv k chan s' := by
  cases a with
  | sys a =>
      simp only [clientStep] at hs'
      split at hs'
      · rename_i hallow
        obtain ⟨sys, hsys, rfl⟩ := Option.map_eq_some_iff.mp hs'
        unfold schedStep at hsys
        split at hsys
        · exact h.sys hallow hsys
        · cases hsys
      · cases hs'
  | consume c p =>
      simp only [clientStep] at hs'
      split at hs'
      · rename_i hturn
        obtain ⟨sys, hsys, rfl⟩ := withRole_eq hs'
        exact h.acquire hturn hsys .test (by simp)
      · cases hs'
  | test c p =>
      simp only [clientStep] at hs'
      split at hs'
      · rename_i hturn
        split at hs'
        · cases hs'
          exact h.testTrue hturn
        · rename_i hcond
          obtain ⟨sys, hsys, rfl⟩ := withRole_eq hs'
          exact h.testFalse hturn (by simpa using hcond) hsys
      · cases hs'
  | clear c p =>
      simp only [clientStep] at hs'
      split at hs'
      · cases hs'
        exact h.clear
      · cases hs'
  | produce c p =>
      simp only [clientStep] at hs'
      split at hs'
      · rename_i hturn
        obtain ⟨sys, hsys, rfl⟩ := withRole_eq hs'
        exact h.acquire hturn hsys .set (by simp)
      · cases hs'
  | set c p =>
      simp only [clientStep] at hs'
      split at hs'
      · rename_i hturn
        cases hs'
        exact h.set hturn
      · cases hs'
  | wakeup c p =>
      simp only [clientStep] at hs'
      split at hs'
      · rename_i hturn
        obtain ⟨sys, hsys, rfl⟩ := withRole_eq hs'
        exact h.wakeup hturn hsys
      · cases hs'
  | release c p =>
      simp only [clientStep] at hs'
      split at hs'
      · rename_i hturn
        obtain ⟨sys, hsys, rfl⟩ := withRole_eq hs'
        exact h.release hturn hsys
      · cases hs'

theorem WakeInv.run {initproc : Fin n} {cond : Bool} {as : List (ClientAct m n)}
    (hrun : Run.exec (clientStep k chan) (Clients.init m n initproc cond) as = some s) :
    WakeInv k chan s :=
  Run.exec_invariant (fun _ _ _ h hs => h.step hs) (WakeInv.init m n k chan initproc cond) hrun

/-- In every state of every run in which the lock is free and the condition is
true, no process sleeps on the channel.  In particular this is so while the
condition has been true since the last `wakeup(chan)`. -/
theorem no_lost_wakeup {initproc : Fin n} {cond : Bool} {as : List (ClientAct m n)}
    (hrun : Run.exec (clientStep k chan) (Clients.init m n initproc cond) as = some s)
    (hfree : s.sys.locks.Free (.other k)) (hcond : s.cond = true) (p : Fin n) :
    ¬ ((s.sys.proc p).state = .sleeping ∧ (s.sys.proc p).chan = chan) := by
  obtain ⟨hc, ha⟩ := WakeInv.run hrun
  refine fun hp => ha.quiet hcond (fun q => ?_) p (.inl hp)
  have hidle : s.role q = .idle ∨ s.role q = .loop := by
    obtain ⟨b, hstage, hiff⟩ := hc.stage q
    have hb : b ≠ true := by
      rw [Ne, hiff]
      rintro ⟨c, -, hm⟩
      exact hfree.notMem c hm
    generalize s.role q = r at hstage
    generalize s.sys.stack (.proc q) = st at hstage
    cases hstage with
    | idle => exact .inl rfl
    | sleep => exact .inr rfl
    | intr => exact .inr rfl
    | _ => exact absurd rfl hb
  rcases hidle with hr | hr <;> rw [hr] <;> simp

/-- The first process forks a consumer, which falls asleep on the other CPU. -/
def consumerSleeps : List (ClientAct 2 2) :=
  List.replicate 5 (.sys (.run 0 true)) ++ [.sys (.call 0 .fork)] ++
    List.replicate 20 (.sys (.run 0 true)) ++ List.replicate 8 (.sys (.run 1 true)) ++
    [.consume 1 1, .test 1 1] ++ List.replicate 7 (.sys (.run 1 true))

/-- Then the first process sets the condition. -/
def producerWakes : List (ClientAct 2 2) :=
  consumerSleeps ++ [.produce 0 0, .set 0 0, .wakeup 0 0] ++
    List.replicate 5 (.sys (.run 0 true)) ++ [.release 0 0]

/-- A run with the lock and the channel `0`. -/
def runOf (as : List (ClientAct 2 2)) : Option (Clients 2 2) :=
  Run.exec (clientStep 0 (.other 0)) (Clients.init 2 2 0 false) as

example : (runOf consumerSleeps).map (fun s => ((s.sys.proc 1).state, (s.sys.proc 1).chan)) =
    some (.sleeping, .other 0) := by decide +kernel

theorem producerWakes_isSome : (runOf producerWakes).isSome := by decide +kernel

theorem no_lost_wakeup_oneConsumer :
    ∃ s, Run.exec (clientStep 0 (.other 0)) (Clients.init 2 2 0 false) producerWakes = some s ∧
      s.sys.locks.Free (.other 0) ∧ s.cond = true ∧
      ∀ p, ¬ ((s.sys.proc p).state = .sleeping ∧ (s.sys.proc p).chan = .other 0) := by
  have hs := (Option.some_get producerWakes_isSome).symm
  have hfree : (Option.get _ producerWakes_isSome).sys.locks.Free (.other 0) := by decide +kernel
  have hcond : (Option.get _ producerWakes_isSome).cond = true := by decide +kernel
  exact ⟨_, hs, hfree, hcond, no_lost_wakeup hs hfree hcond⟩

end Xv6
