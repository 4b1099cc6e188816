import Xv6.Proc.Sleeplock

/-!
# Sleep-locks are exclusive

While `lk->lk` is free, the fields of a sleep-lock are right (`Settled`).  A process that has
`lk->lk` knows how they differ from that (`Pc.Says`), and the others do not change them.  A
process decides to sleep while the lock is taken, and gives up `lk->lk` only with `p->lock`, so
the `wakeup` of the next `releasesleep` meets it: it waits for `p->lock` and finds the process
asleep (`Proc.Dozes`).
-/

namespace Xv6.Sleeplock

/-! ## The invariant -/

variable {n : Nat} {L : Type} {s s' : Sys n L} {p p' : Fin n} {q : Proc n L} {k : Lock n} {l l' : L}

/-- The process sleeps on the lock, or is about to and has given up `lk->lk`. -/
def Proc.Dozes (q : Proc n L) (l : L) : Prop :=
  q.pc = .acquiresleep l .suspend ∨ q.pc = .acquiresleep l .sched ∧ q.state = .sleeping

/-- What `p->lock` protects agrees with the point that the process has reached. -/
structure Proc.Ok (q : Proc n L) : Prop where
  asleep : ∀ l, q.state = .sleeping → q.chan = some (.lock l) → q.pc = .acquiresleep l .sched
  chan : ∀ l, q.pc = .acquiresleep l .sched → q.chan = some (.lock l)
  locked : ∀ l, q.pc = .acquiresleep l .suspend → q.lock = true
  locking : ∀ l, q.pc = .acquiresleep l .unlock → q.lock = true
  releasing : ∀ l, q.pc = .releasesleep l .acquire → q.held l = true

def NoOne (s : Sys n L) (l : L) : Prop := ∀ p, (s.proc p).held l = false

/-- The fields of a lock are right: they name the process that has the lock, and if there is
none, no process sleeps on the lock. -/
def Settled (s : Sys n L) (l : L) : Prop :=
  (∃ p, (∀ q, (s.proc q).held l = true ↔ q = p) ∧ (s.lock l).locked = true ∧
    (s.lock l).pid = (s.proc p).pid) ∨
  NoOne s l ∧ (s.lock l).locked = false ∧ ∀ q, ¬ (s.proc q).Dozes l

/-- What holds of a lock while a process has `lk->lk`. -/
def Pc.Says (s : Sys n L) (l : L) (p : Fin n) : Pc n L → Prop
  | .idle | .asleep => False
  | .acquiresleep _ pc =>
      match pc with
      | .acquire | .suspend | .sched => False
      | .test => Settled s l
      | .lockProc | .unlock => Settled s l ∧ (s.lock l).locked = true
      | .setLocked => NoOne s l
      | .setPid => NoOne s l ∧ (s.lock l).locked = true
      | .release => NoOne s l ∧ (s.lock l).locked = true ∧ (s.lock l).pid = (s.proc p).pid
  | .releasesleep _ pc =>
      match pc with
      | .acquire => False
      | .clearLocked => NoOne s l
      | .clearPid => NoOne s l ∧ (s.lock l).locked = false
      | .wake rest => NoOne s l ∧ (s.lock l).locked = false ∧ ∀ q, (s.proc q).Dozes l → q ∈ rest
      | .release => NoOne s l ∧ (s.lock l).locked = false ∧ ∀ q, ¬ (s.proc q).Dozes l
  | .holdingsleep _ pc =>
      match pc with
      | .acquire => False
      | .read => Settled s l
      | .release r => Settled s l ∧ (r = true ↔ (s.proc p).held l = true)

structure Inv (s : Sys n L) : Prop where
  pids : Function.Injective fun p => (s.proc p).pid
  procs : ∀ p, (s.proc p).Ok
  spin : ∀ p l, (s.proc p).pc.spin = some l ↔ (s.lock l).lk = some p
  settled : ∀ l, (s.lock l).lk = none → Settled s l
  inside : ∀ l p, (s.lock l).lk = some p → (s.proc p).pc.Says s l p

/-- The fields of the lock and its holder are the same. -/
structure Same (s s' : Sys n L) (l : L) : Prop where
  locked : (s'.lock l).locked = (s.lock l).locked
  pid : (s'.lock l).pid = (s.lock l).pid
  pids : ∀ p, (s'.proc p).pid = (s.proc p).pid
  held : ∀ p, (s'.proc p).held l = (s.proc p).held l

/-- In addition, no more processes sleep on the lock. -/
structure Apart (s s' : Sys n L) (l : L) : Prop extends Same s s' l where
  dozes : ∀ p, (s'.proc p).Dozes l → (s.proc p).Dozes l

theorem NoOne.same (h : NoOne s l) (hs : Same s s' l) : NoOne s' l :=
  fun p => (hs.held p).trans (h p)

theorem Settled.apart (h : Settled s l) (ha : Apart s s' l) : Settled s' l := by
  unfold Settled
  rw [ha.locked, ha.pid]
  rcases h with ⟨p, hp, hlocked, hpid⟩ | ⟨hno, hlocked, hd⟩
  · exact .inl ⟨p, fun q => by rw [ha.held, hp], hlocked, by rw [ha.pids, hpid]⟩
  · exact .inr ⟨hno.same ha.toSame, hlocked, fun q hq => hd q (ha.dozes q hq)⟩

/-- Processes may begin to sleep on a lock that is taken. -/
theorem Settled.same (h : Settled s l) (hlocked : (s.lock l).locked = true)
    (hs : Same s s' l) : Settled s' l := by
  unfold Settled
  rw [hs.locked, hs.pid]
  rcases h with ⟨p, hp, hlocked, hpid⟩ | ⟨-, hfree, -⟩
  · exact .inl ⟨p, fun q => by rw [hs.held, hp], hlocked, by rw [hs.pids, hpid]⟩
  · rw [hlocked] at hfree
    cases hfree

theorem Settled.noOne (h : Settled s l) (hfree : (s.lock l).locked = false) : NoOne s l := by
  rcases h with ⟨p, -, hlocked, -⟩ | ⟨hno, -, -⟩
  · rw [hlocked] at hfree
    cases hfree
  · exact hno

theorem Pc.Says.apart {pc : Pc n L} (h : pc.Says s l p) (ha : Apart s s' l) : pc.Says s' l p := by
  have hs := ha.toSame
  cases pc with
  | idle | asleep => exact h
  | acquiresleep _ pc =>
      cases pc with
      | acquire | suspend | sched => exact h
      | test => exact Settled.apart h ha
      | lockProc | unlock => exact ⟨h.1.apart ha, hs.locked.trans h.2⟩
      | setLocked => exact NoOne.same h hs
      | setPid => exact ⟨h.1.same hs, hs.locked.trans h.2⟩
      | release => exact ⟨h.1.same hs, hs.locked.trans h.2.1, by rw [hs.pid, hs.pids, h.2.2]⟩
  | releasesleep _ pc =>
      cases pc with
      | acquire => exact h
      | clearLocked => exact NoOne.same h hs
      | clearPid => exact ⟨h.1.same hs, hs.locked.trans h.2⟩
      | wake rest | release =>
          exact ⟨h.1.same hs, hs.locked.trans h.2.1, fun q hq => h.2.2 q (ha.dozes q hq)⟩
  | holdingsleep _ pc =>
      cases pc with
      | acquire => exact h
      | read => exact Settled.apart h ha
      | release r => exact ⟨h.1.apart ha, by rw [hs.held, h.2]⟩

/-! ## Steps -/

@[simp] theorem setProc_lock : (s.setProc p q).lock = s.lock := rfl

@[simp] theorem setProc_proc : (s.setProc p q).proc p = q := Function.update_self _ _ _

theorem setProc_other (h : p' ≠ p) : (s.setProc p q).proc p' = s.proc p' :=
  Function.update_of_ne h _ _

/-- What holds of every process after a step that changes one. -/
theorem forall_setProc {P : Fin n → Proc n L → Prop} (hp : P p q)
    (h : ∀ p', p' ≠ p → P p' (s.proc p')) (p' : Fin n) : P p' ((s.setProc p q).proc p') := by
  by_cases hne : p' = p
  · subst hne
    rw [setProc_proc]
    exact hp
  · rw [setProc_other hne]
    exact h p' hne

/-- A step that is not about a lock: it does not change what the process has, and the process
goes on to another point only if it has no spin lock. -/
theorem Inv.setProc (h : Inv s) (hok : q.Ok) (hpid : q.pid = (s.proc p).pid)
    (hheld : q.held = (s.proc p).held)
    (hpc : q.pc = (s.proc p).pc ∨ q.pc.spin = none ∧ (s.proc p).pc.spin = none)
    (hdoze : ∀ l, q.Dozes l → (s.proc p).Dozes l) : Inv (s.setProc p q) := by
  have hpids : ∀ p', ((s.setProc p q).proc p').pid = (s.proc p').pid :=
    forall_setProc (P := fun p' q' => q'.pid = (s.proc p').pid) hpid fun _ _ => rfl
  have hspin : q.pc.spin = (s.proc p).pc.spin := by
    rcases hpc with he | ⟨h1, h2⟩
    · rw [he]
    · rw [h1, h2]
  have ha : ∀ l, Apart s (s.setProc p q) l := fun l =>
    ⟨⟨rfl, rfl, hpids,
      forall_setProc (P := fun p' q' => q'.held l = (s.proc p').held l) (by rw [hheld])
        fun _ _ => rfl⟩,
      forall_setProc (P := fun p' q' => q'.Dozes l → (s.proc p').Dozes l) (hdoze l)
        fun _ _ => id⟩
  refine ⟨fun p₁ p₂ he => h.pids ?_,
    forall_setProc (P := fun _ q' => q'.Ok) hok fun p' _ => h.procs p', fun p' l => ?_,
    fun l hl => (h.settled l hl).apart (ha l), fun l p' hl => ?_⟩
  · simpa only [hpids] using he
  · have hs := forall_setProc (s := s) (P := fun p' q' => q'.pc.spin = (s.proc p').pc.spin) hspin
      (fun _ _ => rfl) p'
    rw [hs]
    exact h.spin p' l
  · have hsays := (h.inside l p' hl).apart (ha l)
    by_cases hne : p' = p
    · subst hne
      have hspin' := (h.spin p' l).mpr hl
      rw [setProc_proc]
      rcases hpc with he | ⟨-, h2⟩
      · rwa [he]
      · rw [h2] at hspin'
        cases hspin'
    · rwa [setProc_other hne]

/-- What a process that has `lk->lk` may rely on. -/
theorem Inv.says_of {pc : Pc n L} (h : Inv s) (hpc : (s.proc p).pc = pc)
    (hspin : pc.spin = some l) :
    (s.proc p).pc.spin = some l ∧ (s.lock l).lk = some p ∧ pc.Says s l p := by
  subst hpc
  have hlk := (h.spin p l).mp hspin
  exact ⟨hspin, hlk, h.inside l p hlk⟩

/-- A process is woken, killed, or put on a CPU or off it. -/
theorem Inv.setState (h : Inv s) {st : ProcState} {killed : Bool}
    (hst : st = .sleeping → (s.proc p).state = .sleeping) :
    Inv (s.setProc p { s.proc p with state := st, killed := killed }) := by
  have hok := h.procs p
  refine h.setProc ⟨fun l hs => hok.asleep l (hst hs), hok.chan, hok.locked, hok.locking,
    hok.releasing⟩ rfl rfl (.inl rfl) fun l hd => hd.imp id fun hd => ⟨hd.1, hst hd.2⟩

theorem Inv.kill (h : Inv s) (p : Fin n) (pid : Int) : Inv (s.setProc p ((s.proc p).kill pid)) := by
  unfold Proc.kill
  split
  · exact h.setState (by split <;> simp_all)
  · rw [Sys.setProc, Function.update_eq_self]
    exact h

/-- A process that comes back from `sched` in `sleep` has to acquire `lk->lk` again. -/
theorem Inv.resume (h : Inv s) (p : Fin n) : Inv (s.setProc p (s.proc p).resume) := by
  unfold Proc.resume
  split
  · rename_i hpc
    exact h.setProc ⟨by simp, by simp, by simp, by simp, by simp⟩ rfl rfl
      (.inr ⟨rfl, by rw [hpc]; rfl⟩) (by simp [Proc.Dozes])
  · rename_i hpc
    exact h.setProc ⟨by simp, by simp, by simp, by simp, by simp⟩ rfl rfl
      (.inr ⟨rfl, by rw [hpc]; rfl⟩) (by simp [Proc.Dozes])
  · exact h.setState (by simp)

/-- A call. -/
theorem Inv.call {pc : Pc n L} (h : Inv s)
    (hp : (s.proc p).state = .running ∧ (s.proc p).pc = .idle) (hspin : pc.spin = none)
    (hpc : ∀ l, pc ≠ .acquiresleep l .suspend ∧ pc ≠ .acquiresleep l .sched)
    (hrel : ∀ l, pc = .releasesleep l .acquire → (s.proc p).held l = true) :
    Inv (s.goto p pc) := by
  refine h.setProc ⟨fun l hs => ?_, fun l he => absurd he (hpc l).2,
    fun l he => absurd he (hpc l).1, fun l he => ?_, hrel⟩ rfl rfl (.inr ⟨hspin, by rw [hp.2]; rfl⟩) ?_
  · rw [show (s.proc p).state = _ from hs] at hp
    cases hp.1
  · rw [show pc = _ from he] at hspin
    cases hspin
  · rintro l (he | ⟨he, -⟩)
    · exact absurd he (hpc l).1
    · exact absurd he (hpc l).2

section

variable [DecidableEq L]

@[simp] theorem setLock_proc : (s.setLock l k).proc = s.proc := rfl

@[simp] theorem setLock_lock : (s.setLock l k).lock l = k := Function.update_self _ _ _

theorem setLock_other (h : l' ≠ l) : (s.setLock l k).lock l' = s.lock l' :=
  Function.update_of_ne h _ _

theorem setLock_self : s.setLock l (s.lock l) = s := by
  rw [Sys.setLock, Function.update_eq_self]

/-- A step of a process that has `lk->lk` before it or after it. -/
theorem Inv.move (h : Inv s) (hlk : (s.lock l).lk = none ∨ (s.lock l).lk = some p)
    (hk : k.lk = none ∨ k.lk = some p) (hok : q.Ok) (hpid : q.pid = (s.proc p).pid)
    (hheld : ∀ l', l' ≠ l → q.held l' = (s.proc p).held l')
    (hdoze : ∀ l', l' ≠ l → q.Dozes l' → (s.proc p).Dozes l')
    (hspin : ∀ l', (s.proc p).pc.spin = some l' → l' = l)
    (hspin' : ∀ l', q.pc.spin = some l' ↔ l' = l ∧ k.lk = some p)
    (hsettled : k.lk = none → Settled ((s.setLock l k).setProc p q) l)
    (hinside : k.lk = some p → q.pc.Says ((s.setLock l k).setProc p q) l p) :
    Inv ((s.setLock l k).setProc p q) := by
  have hpids : ∀ p', (((s.setLock l k).setProc p q).proc p').pid = (s.proc p').pid :=
    forall_setProc (P := fun p' q' => q'.pid = (s.proc p').pid) hpid fun _ _ => rfl
  have ha : ∀ l', l' ≠ l → Apart s ((s.setLock l k).setProc p q) l' := fun l' hl' =>
    ⟨⟨by rw [setProc_lock, setLock_other hl'], by rw [setProc_lock, setLock_other hl'], hpids,
      forall_setProc (P := fun p' q' => q'.held l' = (s.proc p').held l') (hheld l' hl')
        fun _ _ => rfl⟩,
      forall_setProc (P := fun p' q' => q'.Dozes l' → (s.proc p').Dozes l') (hdoze l' hl')
        fun _ _ => id⟩
  refine ⟨fun p₁ p₂ he => h.pids ?_,
    forall_setProc (P := fun _ q' => q'.Ok) hok fun p' _ => h.procs p', fun p' l' => ?_,
    fun l' hl => ?_, fun l' p' hl => ?_⟩
  · simpa only [hpids] using he
  · rw [setProc_lock]
    by_cases hp : p' = p <;> by_cases hl : l' = l
    · subst hp hl
      rw [setProc_proc, setLock_lock, hspin']
      exact and_iff_right rfl
    · subst hp
      rw [setProc_proc, setLock_other hl, hspin', ← h.spin]
      exact ⟨fun hc => absurd hc.1 hl, fun hc => absurd (hspin l' hc) hl⟩
    · subst hl
      rw [setProc_other hp, setLock_lock, setLock_proc, h.spin]
      have hnot : ∀ {o : Option (Fin n)}, o = none ∨ o = some p → o ≠ some p' := by
        rintro o (rfl | rfl) he <;> cases he
        exact hp rfl
      exact iff_of_false (hnot hlk) (hnot hk)
    · rw [setProc_other hp, setLock_other hl, setLock_proc, h.spin]
  · rw [setProc_lock] at hl
    by_cases hne : l' = l
    · subst hne
      rw [setLock_lock] at hl
      exact hsettled hl
    · rw [setLock_other hne] at hl
      exact (h.settled l' hl).apart (ha l' hne)
  · rw [setProc_lock] at hl
    by_cases hne : l' = l
    · subst hne
      rw [setLock_lock] at hl
      have hp : p' = p := by
        rcases hk with hk | hk <;> rw [hk] at hl <;> cases hl
        rfl
      subst hp
      rw [setProc_proc]
      exact hinside hl
    · rw [setLock_other hne] at hl
      have hp : p' ≠ p := by
        rintro rfl
        exact hne (hspin l' ((h.spin p' l').mpr hl))
      rw [setProc_other hp]
      exact (h.inside l' p' hl).apart (ha l' hne)

/-- The process that takes the step has `lk->lk`, or takes it. -/
theorem Inv.hold (h : Inv s)
    (hspin : (s.proc p).pc.spin = some l ∨ (s.proc p).pc.spin = none ∧ (s.lock l).lk = none)
    (hstate : q.state = .running) (hpid : q.pid = (s.proc p).pid)
    (hheld : ∀ l', l' ≠ l → q.held l' = (s.proc p).held l')
    (hlock : ∀ l', q.pc = .acquiresleep l' .unlock → q.lock = true)
    (hpc : q.pc.spin = some l) (hk : k.lk = some p)
    (hinside : q.pc.Says ((s.setLock l k).setProc p q) l p) :
    Inv ((s.setLock l k).setProc p q) := by
  have hno : ∀ l' pc, (Pc.acquiresleep l' pc : Pc n L).spin = none →
      q.pc ≠ .acquiresleep l' pc := by
    intro l' pc hn he
    rw [he, hn] at hpc
    cases hpc
  have hno' : ∀ l', q.pc ≠ .releasesleep l' .acquire := by
    intro l' he
    rw [he] at hpc
    cases hpc
  refine h.move ?_ (.inr hk) ⟨fun l' hs => ?_, fun l' he => absurd he (hno l' _ rfl),
    fun l' he => absurd he (hno l' _ rfl), hlock, fun l' he => absurd he (hno' l')⟩ hpid hheld
    (fun l' _ hd => ?_) (fun l' hl' => ?_) (fun l' => ?_) (fun hn => ?_) fun _ => hinside
  · exact hspin.symm.imp (·.2) (h.spin p l).mp
  · rw [hstate] at hs
    cases hs
  · rcases hd with he | ⟨he, -⟩
    · exact absurd he (hno l' _ rfl)
    · exact absurd he (hno l' _ rfl)
  · rcases hspin with hs | ⟨hs, -⟩ <;> rw [hs] at hl' <;> cases hl'
    rfl
  · rw [hpc, hk, Option.some.injEq]
    exact ⟨fun he => ⟨he.symm, rfl⟩, fun he => he.1.symm⟩
  · rw [hk] at hn
    cases hn

/-- The process that takes the step releases `lk->lk`. -/
theorem Inv.leave (h : Inv s) (hspin : (s.proc p).pc.spin = some l) (hok : q.Ok)
    (hpid : q.pid = (s.proc p).pid) (hheld : ∀ l', l' ≠ l → q.held l' = (s.proc p).held l')
    (hpc : q.pc = .idle ∨ q.pc = .acquiresleep l .suspend) (hk : k.lk = none)
    (hsettled : Settled ((s.setLock l k).setProc p q) l) :
    Inv ((s.setLock l k).setProc p q) := by
  refine h.move (.inr ((h.spin p l).mp hspin)) (.inl hk) hok hpid hheld (fun l' hl' hd => ?_)
    (fun l' hl' => ?_) (fun l' => ?_) (fun _ => hsettled) fun hp => ?_
  · rcases hpc with hpc | hpc <;> rcases hd with he | ⟨he, -⟩ <;> rw [hpc] at he <;> cases he
    exact absurd rfl hl'
  · rw [hspin] at hl'
    cases hl'
    rfl
  · have hnone : q.pc.spin = none := by rcases hpc with hpc | hpc <;> rw [hpc] <;> rfl
    rw [hnone, hk]
    exact iff_of_false (by simp) (by simp)
  · rw [hk] at hp
    cases hp

/-- The fields of the lock do not change. -/
theorem same_setLock (hlocked : k.locked = (s.lock l).locked) (hkpid : k.pid = (s.lock l).pid)
    (hpid : q.pid = (s.proc p).pid) (hheld : q.held l = (s.proc p).held l) :
    Same s ((s.setLock l k).setProc p q) l where
  locked := by rw [setProc_lock, setLock_lock, hlocked]
  pid := by rw [setProc_lock, setLock_lock, hkpid]
  pids := forall_setProc (P := fun p' q' => q'.pid = (s.proc p').pid) hpid fun _ _ => rfl
  held := forall_setProc (P := fun p' q' => q'.held l = (s.proc p').held l) hheld fun _ _ => rfl

theorem apart_setLock (hlocked : k.locked = (s.lock l).locked) (hkpid : k.pid = (s.lock l).pid)
    (hpid : q.pid = (s.proc p).pid) (hheld : q.held l = (s.proc p).held l)
    (hdoze : ¬ q.Dozes l) : Apart s ((s.setLock l k).setProc p q) l where
  toSame := same_setLock hlocked hkpid hpid hheld
  dozes := forall_setProc (P := fun p' q' => q'.Dozes l → (s.proc p').Dozes l)
    (fun hd => absurd hd hdoze) fun _ _ => id

theorem NoOne.setProc (h : NoOne s l) (hq : q.held l = false) :
    NoOne ((s.setLock l k).setProc p q) l :=
  forall_setProc (P := fun _ q' => q'.held l = false) hq fun p' _ => h p'

/-- The process that takes the step has `lk->lk` and does not store to the lock. -/
theorem Inv.stay (h : Inv s) (hspin : (s.proc p).pc.spin = some l)
    (hstate : q.state = .running) (hpid : q.pid = (s.proc p).pid)
    (hheld : q.held = (s.proc p).held)
    (hlock : ∀ l', q.pc = .acquiresleep l' .unlock → q.lock = true) (hpc : q.pc.spin = some l)
    (hinside : Apart s (s.setProc p q) l → q.pc.Says (s.setProc p q) l p) :
    Inv (s.setProc p q) := by
  have hdoze : ¬ q.Dozes l := by
    rintro (he | ⟨he, -⟩) <;> rw [he] at hpc <;> cases hpc
  have ha := apart_setLock (s := s) (k := s.lock l) rfl rfl hpid (congrFun hheld l) hdoze
  have hmove := h.hold (k := s.lock l) (.inl hspin) hstate hpid (fun l' _ => congrFun hheld l')
    hlock hpc ((h.spin p l).mp hspin)
  rw [setLock_self] at hmove ha
  exact hmove (hinside ha)

/-- `acquire(&lk->lk)`. -/
theorem Inv.enter {pc : Pc n L} (h : Inv s) (hst : (s.proc p).state = .running)
    (hspin : (s.proc p).pc.spin = none) (hfree : (s.lock l).lk = none) (hpc : pc.spin = some l)
    (hlock : ∀ l', pc ≠ .acquiresleep l' .unlock)
    (hinside : ∀ s', Settled s' l → pc.Says s' l p) :
    Inv ((s.setLock l { s.lock l with lk := some p }).goto p pc) := by
  refine h.hold (.inr ⟨hspin, hfree⟩) hst rfl (fun _ _ => rfl)
    (fun l' he => absurd he (hlock l')) hpc rfl (hinside _ ((h.settled l hfree).apart ?_))
  refine apart_setLock rfl rfl rfl rfl ?_
  rintro (he | ⟨he, -⟩) <;> rw [show pc = _ from he] at hpc <;> cases hpc

/-- `release(&lk->lk)` at the end of a call. -/
theorem Inv.exit (h : Inv s) (hst : (s.proc p).state = .running)
    (hspin : (s.proc p).pc.spin = some l) (hset : Settled s l) :
    Inv ((s.setLock l { s.lock l with lk := none }).goto p .idle) := by
  refine h.leave hspin ⟨fun l' hs => ?_, by simp, by simp, by simp, by simp⟩ rfl (fun _ _ => rfl)
    (.inl rfl) rfl (hset.apart (apart_setLock rfl rfl rfl rfl (by simp [Proc.Dozes])))
  rw [show (s.proc p).state = _ from hs] at hst
  cases hst

/-- Every step of `acquiresleep`. -/
theorem Inv.acquiresleep {pc : AcquirePc} (h : Inv s) (hst : (s.proc p).state = .running)
    (hpc : (s.proc p).pc = .acquiresleep l pc) (hs : acquiresleep s p l pc = some s') :
    Inv s' := by
  have hnot : ∀ {q : Proc n L}, q.state = .running → q.state ≠ .sleeping := by
    intro q hq hs
    rw [hq] at hs
    cases hs
  cases pc with
  | acquire =>
      simp only [Sleeplock.acquiresleep] at hs
      split at hs
      · rename_i hfree
        cases hs
        exact h.enter hst (by rw [hpc]; rfl) hfree rfl (by simp) fun _ => id
      · cases hs
  | test =>
      cases hs
      obtain ⟨hsp, -, hset⟩ := h.says_of hpc rfl
      change Settled s l at hset
      by_cases hl : (s.lock l).locked = true
      · rw [if_pos hl]
        exact h.stay hsp hst rfl rfl (by simp) rfl fun ha => ⟨hset.apart ha, hl⟩
      · rw [if_neg hl]
        refine h.stay hsp hst rfl rfl (by simp) rfl fun ha => ?_
        exact (hset.noOne (by simpa using hl)).same ha.toSame
  | lockProc =>
      simp only [Sleeplock.acquiresleep] at hs
      split at hs
      · cases hs
        obtain ⟨hsp, -, hset, hl⟩ := h.says_of hpc rfl
        exact h.stay hsp hst rfl rfl (fun _ _ => rfl) rfl fun ha => ⟨hset.apart ha, hl⟩
      · cases hs
  | unlock =>
      cases hs
      obtain ⟨hsp, -, hset, hl⟩ := h.says_of hpc rfl
      refine h.leave hsp ⟨fun l' hs => absurd hs (hnot hst), by simp, fun _ _ => ?_, by simp,
        by simp⟩ rfl (fun _ _ => rfl) (.inr rfl) rfl (hset.same hl (same_setLock rfl rfl rfl rfl))
      exact (h.procs p).locking l hpc
  | suspend =>
      cases hs
      refine h.setProc ⟨?_, ?_, by simp, by simp, by simp⟩ rfl rfl (.inr ⟨rfl, by rw [hpc]; rfl⟩) ?_
      · rintro l' - hc
        cases hc
        rfl
      · intro l' he
        cases he
        rfl
      · rintro l' (he | ⟨he, -⟩) <;> cases he
        exact .inl hpc
  | sched => cases hs
  | setLocked =>
      cases hs
      obtain ⟨hsp, hlk, hno⟩ := h.says_of hpc rfl
      exact h.hold (.inl hsp) hst rfl (fun _ _ => rfl) (by simp) rfl hlk
        ⟨NoOne.setProc hno (hno p), by simp⟩
  | setPid =>
      cases hs
      obtain ⟨hsp, hlk, hno, hl⟩ := h.says_of hpc rfl
      exact h.hold (.inl hsp) hst rfl (fun _ _ => rfl) (by simp) rfl hlk
        ⟨hno.setProc (hno p), by simpa using hl, by simp⟩
  | release =>
      cases hs
      obtain ⟨hsp, -, hno, hl, hpid⟩ := h.says_of hpc rfl
      refine h.leave hsp ⟨fun l' hs => absurd hs (hnot hst), by simp, by simp, by simp, by simp⟩ rfl
        (fun l' hl' => Function.update_of_ne hl' _ _) (.inl rfl) rfl
        (.inl ⟨p, ?_, by simpa using hl, by simpa using hpid⟩)
      refine forall_setProc (P := fun p' q' => q'.held l = true ↔ p' = p) (by simp) fun p' hp' => ?_
      exact iff_of_false (by simp [hno p']) hp'

/-- The process that `wakeup` has come to does not sleep any more. -/
theorem Proc.Ok.wakeup_dozes (h : q.Ok) (hlock : q.lock = false) :
    ¬ (q.wakeup (.lock l)).Dozes l := by
  have hnot : q.pc ≠ .acquiresleep l .suspend := by
    intro he
    rw [h.locked l he] at hlock
    cases hlock
  unfold Proc.wakeup
  split
  · rintro (he | ⟨-, hs⟩)
    · exact hnot he
    · cases hs
  · rename_i hc
    rintro (he | ⟨he, hs⟩)
    · exact hnot he
    · exact hc ⟨hs, h.chan l he⟩

theorem Inv.wakeup (h : Inv s) (p : Fin n) (chan : Chan L) :
    Inv (s.setProc p ((s.proc p).wakeup chan)) := by
  unfold Proc.wakeup
  split
  · exact h.setState (by simp)
  · rw [Sys.setProc, Function.update_eq_self]
    exact h

/-- Every step of `releasesleep`. -/
theorem Inv.releasesleep {pc : ReleasePc n} (h : Inv s) (hst : (s.proc p).state = .running)
    (hpc : (s.proc p).pc = .releasesleep l pc) (hs : releasesleep s p l pc = some s') :
    Inv s' := by
  cases pc with
  | acquire =>
      simp only [Sleeplock.releasesleep] at hs
      split at hs
      · rename_i hfree
        cases hs
        refine h.hold (.inr ⟨by rw [hpc]; rfl, hfree⟩) hst rfl
          (fun l' hl' => Function.update_of_ne hl' _ _) (by simp) rfl rfl ?_
        have hheld := (h.procs p).releasing l hpc
        -- the caller is the one process that has the lock
        rcases h.settled l hfree with ⟨p', hp', -⟩ | ⟨hno, -⟩
        · obtain rfl := (hp' p).mp hheld
          refine forall_setProc (P := fun _ q' => q'.held l = false) (by simp) fun q hq => ?_
          simpa using fun he => hq ((hp' q).mp he)
        · rw [hno p] at hheld
          cases hheld
      · cases hs
  | clearLocked =>
      cases hs
      obtain ⟨hsp, hlk, hno⟩ := h.says_of hpc rfl
      exact h.hold (.inl hsp) hst rfl (fun _ _ => rfl) (by simp) rfl hlk
        ⟨NoOne.setProc hno (hno p), by simp⟩
  | clearPid =>
      cases hs
      obtain ⟨hsp, hlk, hno, hl⟩ := h.says_of hpc rfl
      exact h.hold (.inl hsp) hst rfl (fun _ _ => rfl) (by simp) rfl hlk
        ⟨hno.setProc (hno p), by simpa using hl, fun q _ => List.mem_finRange q⟩
  | wake rest =>
      obtain ⟨hsp, -, hno, hl, hd⟩ := h.says_of hpc rfl
      cases rest with
      | nil =>
          cases hs
          refine h.stay hsp hst rfl rfl (by simp) rfl fun ha =>
            ⟨hno.same ha.toSame, hl, fun q hq => ?_⟩
          exact List.not_mem_nil (hd q (ha.dozes q hq))
      | cons q rest =>
          simp only [Sleeplock.releasesleep] at hs
          split at hs
          · rename_i hqp
            cases hs
            refine h.stay hsp hst rfl rfl (by simp) rfl fun ha =>
              ⟨hno.same ha.toSame, hl, fun r hr => ?_⟩
            refine (List.mem_cons.mp (hd r (ha.dozes r hr))).resolve_left fun he => ?_
            rw [he, hqp, setProc_proc] at hr
            rcases hr with hr | ⟨hr, -⟩ <;> cases hr
          split at hs
          · rename_i hqp hlock
            cases hs
            -- first `q` is woken, and then the process goes on
            have h₁ := h.wakeup q (.lock l)
            have hpc₁ : ((s.setProc q ((s.proc q).wakeup (.lock l))).proc p).pc =
                .releasesleep l (.wake (q :: rest)) := by
              rw [setProc_other (Ne.symm hqp), hpc]
            have hst₁ : ((s.setProc q ((s.proc q).wakeup (.lock l))).proc p).state = .running := by
              rw [setProc_other (Ne.symm hqp), hst]
            obtain ⟨hsp₁, -, hno₁, hl₁, hd₁⟩ := h₁.says_of hpc₁ rfl
            refine h₁.stay hsp₁ hst₁ rfl rfl (by simp) rfl fun ha =>
              ⟨hno₁.same ha.toSame, hl₁, fun r hr => ?_⟩
            refine (List.mem_cons.mp (hd₁ r (ha.dozes r hr))).resolve_left fun he => ?_
            have hr₁ := ha.dozes r hr
            rw [he, setProc_proc] at hr₁
            exact (h.procs q).wakeup_dozes hlock hr₁
          · cases hs
  | release =>
      cases hs
      obtain ⟨hsp, -, hsay⟩ := h.says_of hpc rfl
      exact h.exit hst hsp (.inr hsay)

/-- Every step of `holdingsleep`. -/
theorem Inv.holdingsleep {pc : HoldingPc} (h : Inv s) (hst : (s.proc p).state = .running)
    (hpc : (s.proc p).pc = .holdingsleep l pc) (hs : holdingsleep s p l pc = some s') :
    Inv s' := by
  cases pc with
  | acquire =>
      simp only [Sleeplock.holdingsleep] at hs
      split at hs
      · rename_i hfree
        cases hs
        exact h.enter hst (by rw [hpc]; rfl) hfree rfl (by simp) fun _ => id
      · cases hs
  | read =>
      cases hs
      obtain ⟨hsp, -, hset⟩ := h.says_of hpc rfl
      refine h.stay hsp hst rfl rfl (by simp) rfl fun ha => ⟨Settled.apart hset ha, ?_⟩
      rw [ha.held, Lock.holding, Bool.and_eq_true, beq_iff_eq]
      rcases hset with ⟨p', hp', hl, hpid⟩ | ⟨hno, hl, -⟩
      · rw [hp', hl, hpid]
        exact ⟨fun he => (h.pids he.2).symm, fun he => ⟨rfl, by rw [he]⟩⟩
      · rw [hno p, hl]
        simp
  | release r =>
      cases hs
      obtain ⟨hsp, -, hset, -⟩ := h.says_of hpc rfl
      exact h.exit hst hsp hset

theorem Inv.run (h : Inv s) (hst : (s.proc p).state = .running) (hs : run s p = some s') :
    Inv s' := by
  unfold Sleeplock.run at hs
  split at hs
  · cases hs
  · cases hs
  · exact h.acquiresleep hst (by assumption) hs
  · exact h.releasesleep hst (by assumption) hs
  · exact h.holdingsleep hst (by assumption) hs

theorem Inv.step {a : Act n L} (h : Inv s) (hs : step s a = some s') : Inv s' := by
  cases a with
  | run p =>
      simp only [Sleeplock.step] at hs
      split at hs
      · exact h.run (by assumption) hs
      · cases hs
  | callAcquiresleep p l =>
      simp only [Sleeplock.step] at hs
      split at hs <;> cases hs
      exact h.call (by assumption) rfl (by simp) (by simp)
  | callReleasesleep p l =>
      simp only [Sleeplock.step] at hs
      split at hs <;> cases hs
      rename_i hp
      refine h.call ⟨hp.1, hp.2.1⟩ rfl (by simp) fun l' he => ?_
      cases he
      exact hp.2.2
  | callHoldingsleep p l =>
      simp only [Sleeplock.step] at hs
      split at hs <;> cases hs
      exact h.call (by assumption) rfl (by simp) (by simp)
  | sleep p a =>
      simp only [Sleeplock.step] at hs
      split at hs <;> cases hs
      rename_i hp
      exact h.setProc ⟨by simp, by simp, by simp, by simp, by simp⟩ rfl rfl
        (.inr ⟨rfl, by rw [hp.2]; rfl⟩) (by simp [Proc.Dozes])
  | yield p =>
      simp only [Sleeplock.step] at hs
      split at hs <;> cases hs
      exact h.setState (by simp)
  | schedule p =>
      simp only [Sleeplock.step] at hs
      split at hs <;> cases hs
      exact h.resume p
  | wakeup chan q =>
      simp only [Sleeplock.step] at hs
      split at hs <;> cases hs
      exact h.wakeup q chan
  | kill pid q =>
      simp only [Sleeplock.step] at hs
      split at hs <;> cases hs
      exact h.kill q pid

end

theorem Inv.start {pids : Fin n → Int} (hpids : Function.Injective pids) :
    Inv (start pids : Sys n L) where
  pids := hpids
  procs _ := ⟨by simp [Sleeplock.start], by simp [Sleeplock.start], by simp [Sleeplock.start],
    by simp [Sleeplock.start], by simp [Sleeplock.start]⟩
  spin _ _ := by simp [Sleeplock.start, initsleeplock, Pc.spin]
  settled l _ := .inr ⟨fun _ => rfl, rfl, fun _ => by simp [Sleeplock.start, Proc.Dozes]⟩
  inside l p hl := by simp [Sleeplock.start, initsleeplock] at hl

/-! ## Exclusion -/

theorem Settled.unique (h : Settled s l) (hp : (s.proc p).held l = true)
    (hp' : (s.proc p').held l = true) : p = p' := by
  rcases h with ⟨p₀, hp₀, -⟩ | ⟨hno, -⟩
  · rw [(hp₀ p).mp hp, (hp₀ p').mp hp']
  · rw [hno p] at hp
    cases hp

theorem Pc.Says.settled_or_noOne {pc : Pc n L} (h : pc.Says s l p) : Settled s l ∨ NoOne s l := by
  cases pc with
  | idle | asleep => exact h.elim
  | acquiresleep _ pc =>
      cases pc with
      | acquire | suspend | sched => exact h.elim
      | test => exact .inl h
      | lockProc | unlock => exact .inl h.1
      | setLocked => exact .inr h
      | setPid | release => exact .inr h.1
  | releasesleep _ pc =>
      cases pc with
      | acquire => exact h.elim
      | clearLocked => exact .inr h
      | clearPid | wake | release => exact .inr h.1
  | holdingsleep _ pc =>
      cases pc with
      | acquire => exact h.elim
      | read => exact .inl h
      | release => exact .inl h.1

/-- At most one process has a lock. -/
theorem Inv.unique (h : Inv s) (hp : (s.proc p).held l = true) (hp' : (s.proc p').held l = true) :
    p = p' := by
  have hs : Settled s l ∨ NoOne s l := by
    cases hlk : (s.lock l).lk with
    | none => exact .inl (h.settled l hlk)
    | some r => exact (h.inside l r hlk).settled_or_noOne
  rcases hs with hs | hno
  · exact hs.unique hp hp'
  · rw [hno p] at hp
    cases hp

/-- In every state that processes with different pids can reach, at most one of them is between
`acquiresleep` and `releasesleep` of a lock.  While `lk->lk` is free, `lk->locked` is set and
`lk->pid` is the pid of a process exactly if it is that process, and no process sleeps on a lock
that is not taken.  `holdingsleep` finds out whether the caller is that process. -/
theorem sleeplocks_exclusive [DecidableEq L] {pids : Fin n → Int}
    (hpids : Function.Injective pids) {xs : List (Act n L)} {s : Sys n L}
    (hr : Run.exec step (start pids) xs = some s) (l : L) :
    (∀ p q, (s.proc p).held l = true → (s.proc q).held l = true → p = q) ∧
    ((s.lock l).lk = none →
      ((s.lock l).locked = true ↔ ∃ p, (s.proc p).held l = true) ∧
      (∀ p, (s.proc p).held l = true ↔
        (s.lock l).locked = true ∧ (s.lock l).pid = (s.proc p).pid) ∧
      ((s.lock l).locked = false →
        ∀ q, ¬ ((s.proc q).state = .sleeping ∧ (s.proc q).chan = some (.lock l)))) ∧
    ∀ p r, (s.proc p).pc = .holdingsleep l (.release r) →
      (r = true ↔ (s.proc p).held l = true) := by
  have h : Inv s := Run.exec_invariant (fun _ _ _ h => h.step) (Inv.start hpids) hr
  refine ⟨fun p q hp hq => h.unique hp hq, fun hfree => ?_, fun p r hpc => ?_⟩
  · rcases h.settled l hfree with ⟨p, hp, hl, hpid⟩ | ⟨hno, hl, hd⟩
    · refine ⟨iff_of_true hl ⟨p, (hp p).mpr rfl⟩, fun q => ?_, by simp [hl]⟩
      rw [hp, hl, hpid]
      exact ⟨fun he => ⟨rfl, by rw [he]⟩, fun he => (h.pids he.2).symm⟩
    · refine ⟨by simp [hl, hno _], fun q => by simp [hno q, hl], fun _ q hq => ?_⟩
      exact hd q (.inr ⟨(h.procs q).asleep l hq.1 hq.2, hq.1⟩)
  · obtain ⟨-, -, -, hr⟩ := h.says_of hpc rfl
    exact hr

/-- Two processes call `acquiresleep` one after the other. -/
def twoCalls : List (Act 2 Unit) :=
  .schedule 0 :: .callAcquiresleep 0 () :: List.replicate 5 (.run 0) ++
    .schedule 1 :: .callAcquiresleep 1 () :: List.replicate 5 (.run 1)

/-- The first one has the lock and the other one sleeps on it. -/
theorem sleeplocks_exclusive_oneWaits : ∃ s,
    Run.exec step (start ![3, 4]) twoCalls = some s ∧ (s.lock ()).lk = none ∧
    (s.proc 0).held () = true ∧ (s.proc 1).state = .sleeping ∧ (s.lock ()).locked = true ∧
    (s.lock ()).pid = (s.proc 0).pid := by
  obtain ⟨s, hr, hfree, hheld, hsleep⟩ : ∃ s, Run.exec step (start ![3, 4]) twoCalls = some s ∧
      ((s.lock ()).lk = none ∧ (s.proc 0).held () = true ∧ (s.proc 1).state = .sleeping) :=
    Run.exists_exec_of_check (by decide +kernel)
  have h := sleeplocks_exclusive (by decide) hr ()
  exact ⟨s, hr, hfree, hheld, hsleep, ((h.2.1 hfree).2.1 0).mp hheld⟩

end Xv6.Sleeplock
