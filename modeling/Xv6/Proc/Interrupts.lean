import Xv6.Lib.Run
import Xv6.Proc.Threads

/-!
# Interrupts and context switches

`push_off`, `pop_off`, `acquire`, `release` and `sched`, with the interrupt enable bit of
every CPU and the fields `noff` and `intena` of `struct cpu`.  Apart from these functions
the code of a thread is arbitrary: it may call them in any order, as long as it closes
only what it has opened.  It calls `sched` with exactly `p->lock` held, and the scheduler
thread of a CPU switches to a process with exactly its lock held.  So `yield` and `sleep`
are code of this kind:

  acquire(&p->lock); sched(); release(&p->lock)
  acquire(&p->lock); release(lk); sched(); release(&p->lock); acquire(lk)

`push_off` reads the interrupt enable bit first and clears it in a second step.  While
the bit is set, a trap may come at any point, also between the two steps.  Its code is
arbitrary too, and it may switch away from the CPU.

`opens`, `held` and `before` are history: what the thread has opened and not closed, and
the bit before its outermost `push_off`.
-/

namespace Xv6.Intr

/-! ## States -/

/-- `struct cpu`, with the interrupt enable bit and the kernel stack in use. -/
structure Cpu (n : Nat) where
  noff : Int
  intena : Bool
  /-- `intr_get()`. -/
  intr : Bool
  /-- The process whose kernel stack is in use, null for the scheduler's. -/
  cur : Option (Fin n)

/-- Where a thread is. -/
inductive Pc (n : Nat) where
  | code
  /-- In `push_off`, after `old = intr_get()`, called by `acquire` of a lock or not. -/
  | push (old : Bool) (lk : Option (Lock n))
  /-- In the loop of `acquire`. -/
  | spin (lk : Lock n)
  /-- In `sched`, after `swtch`. -/
  | resume

structure Kthread (n : Nat) where
  pc : Pc n
  /-- Where traps have interrupted the thread. -/
  traps : List (Pc n)
  /-- The variable `intena` of `sched`. -/
  saved : Bool
  /-- Open calls of `push_off`, those of locks that are held apart. -/
  opens : Nat
  held : List (Lock n)
  before : Option Bool

/-- A thread that has not run. -/
def Kthread.fresh (n : Nat) : Kthread n := ⟨.code, [], false, 0, [], none⟩

/-- The calls of `panic`. -/
inductive Panic where
  | popOffInterruptible
  | popOff
  | acquire
  | release
  | schedLock
  | schedLocks
  | schedRunning
  | schedInterruptible
  deriving DecidableEq

/-- `lock` says which CPU has a lock. -/
structure State (m n : Nat) where
  cpu : Fin m → Cpu n
  th : Thread m n → Kthread n
  lock : Lock n → Option (Fin m)
  state : Fin n → ProcState
  panic : Option Panic

/-- What the thread on a CPU does. -/
inductive Act (m n : Nat) where
  | intrOn (c : Fin m)
  | intrOff (c : Fin m)
  | pushOff (c : Fin m)
  | popOff (c : Fin m)
  | acquire (c : Fin m) (lk : Lock n)
  | release (c : Fin m) (lk : Lock n)
  /-- The next step of `push_off`, `acquire` or `sched`. -/
  | go (c : Fin m)
  /-- `p->state = st; sched()`. -/
  | sched (c : Fin m) (st : ProcState)
  /-- The scheduler switches to a process. -/
  | swtch (c : Fin m) (p : Fin n)
  /-- `q->state = st` for a process that does not run. -/
  | setState (c : Fin m) (q : Fin n) (st : ProcState)
  | trap (c : Fin m)
  | sret (c : Fin m)

section Steps

variable {m n : Nat}

/-- `push_off`, after `old = intr_get()`. -/
def Cpu.pushOff (k : Cpu n) (old : Bool) : Cpu n :=
  { k with
    intr := false
    intena := if k.noff = 0 then old else k.intena
    noff := k.noff + 1 }

def Cpu.popOff (k : Cpu n) : Except Panic (Cpu n) :=
  if k.intr then .error .popOffInterruptible
  else if k.noff < 1 then .error .popOff
  else .ok { k with
    noff := k.noff - 1
    intr := if k.noff - 1 = 0 ∧ k.intena = true then true else k.intr }

namespace State

/-- The thread on a CPU. -/
def thread (s : State m n) (c : Fin m) : Thread m n :=
  match (s.cpu c).cur with
  | none => .scheduler c
  | some p => .proc p

def cur (s : State m n) (c : Fin m) : Kthread n := s.th (s.thread c)

def setCpu (s : State m n) (c : Fin m) (k : Cpu n) : State m n :=
  { s with cpu := Function.update s.cpu c k }

/-- A step of the thread on a CPU. -/
def setCur (s : State m n) (c : Fin m) (k : Cpu n) (x : Kthread n) : State m n :=
  { s with cpu := Function.update s.cpu c k, th := Function.update s.th (s.thread c) x }

def setLock (s : State m n) (lk : Lock n) (o : Option (Fin m)) : State m n :=
  { s with lock := Function.update s.lock lk o }

def halt (s : State m n) (e : Panic) : State m n := { s with panic := some e }

/-- The thread has nothing open. -/
def Closed (s : State m n) (c : Fin m) : Prop := (s.cur c).opens = 0 ∧ (s.cur c).held = []

instance (s : State m n) (c : Fin m) : Decidable (s.Closed c) :=
  inferInstanceAs (Decidable (_ ∧ _))

/-- The changes of `q->state` by other threads. -/
def mayBecome : ProcState → ProcState → Bool
  | .unused, .used | .used, .runnable | .sleeping, .runnable | .zombie, .unused
  | .used, .unused => true
  | _, _ => false

/-- The code of `sched`, up to and including `swtch`. -/
def sched (s : State m n) (c : Fin m) (p : Fin n) (st : ProcState) : State m n :=
  if s.lock (.proc p) ≠ some c then s.halt .schedLock
  else if (s.cpu c).noff ≠ 1 then s.halt .schedLocks
  else if st = .running then s.halt .schedRunning
  else if (s.cpu c).intr then s.halt .schedInterruptible
  else
    { s with
      cpu := Function.update s.cpu c { s.cpu c with cur := none }
      th := Function.update (Function.update s.th (.proc p)
        { s.th (.proc p) with pc := .resume, saved := (s.cpu c).intena, held := [] })
        (.scheduler c) { s.th (.scheduler c) with held := [.proc p] }
      state := Function.update s.state p st }

/-- The scheduler switches to a process. -/
def swtch (s : State m n) (c : Fin m) (p : Fin n) : State m n :=
  { s with
    cpu := Function.update s.cpu c { s.cpu c with cur := some p }
    th := Function.update (Function.update s.th (.scheduler c)
      { s.th (.scheduler c) with held := [] })
      (.proc p) { s.th (.proc p) with held := [.proc p] }
    state := Function.update s.state p .running }

end State

/-- The next step of `push_off`, `acquire` or `sched`. -/
def go (s : State m n) (c : Fin m) : Option (State m n) :=
  let k := s.cpu c
  let x := s.cur c
  match x.pc with
  | .code => none
  | .push old lk =>
      let x' := { x with
        opens := x.opens + 1
        before := if k.noff = 0 then some k.intr else x.before }
      match lk with
      | none => some (s.setCur c (k.pushOff old) { x' with pc := .code })
      | some lk =>
          if s.lock lk = some c then some (s.halt .acquire)
          else some (s.setCur c (k.pushOff old) { x' with pc := .spin lk })
  | .spin lk =>
      if s.lock lk = none then
        some ((s.setCur c k
          { x with pc := .code, opens := x.opens - 1, held := lk :: x.held }).setLock lk (some c))
      else none
  | .resume => some (s.setCur c { k with intena := x.saved } { x with pc := .code })

/-- The calls that code makes. -/
def call (s : State m n) : Act m n → Option (State m n)
  | .intrOn c => if s.Closed c then some (s.setCpu c { s.cpu c with intr := true }) else none
  | .intrOff c => if s.Closed c then some (s.setCpu c { s.cpu c with intr := false }) else none
  | .pushOff c => some (s.setCur c (s.cpu c) { s.cur c with pc := .push (s.cpu c).intr none })
  | .popOff c =>
      if 0 < (s.cur c).opens then
        match (s.cpu c).popOff with
        | .error e => some (s.halt e)
        | .ok k => some (s.setCur c k { s.cur c with opens := (s.cur c).opens - 1 })
      else none
  | .acquire c lk =>
      some (s.setCur c (s.cpu c) { s.cur c with pc := .push (s.cpu c).intr (some lk) })
  | .release c lk =>
      if lk ∈ (s.cur c).held then
        if s.lock lk ≠ some c then some (s.halt .release)
        else
          match (s.cpu c).popOff with
          | .error e => some (s.halt e)
          | .ok k =>
              some ((s.setCur c k
                { s.cur c with held := (s.cur c).held.erase lk }).setLock lk none)
      else none
  | .go _ => none
  | .sched c st =>
      match (s.cpu c).cur with
      | none => none
      | some p =>
          if (s.cur c).opens = 0 ∧ (s.cur c).held = [.proc p] then some (s.sched c p st) else none
  | .swtch c p =>
      if (s.cpu c).cur = none ∧ (s.cur c).opens = 0 ∧ (s.cur c).held = [.proc p] ∧
          s.state p = .runnable then some (s.swtch c p) else none
  | .setState c q st =>
      if .proc q ∈ (s.cur c).held ∧ State.mayBecome (s.state q) st then
        some { s with
          state := Function.update s.state q st
          th := if st = .used then Function.update s.th (.proc q) (.fresh n) else s.th }
      else none
  | .trap _ => none
  | .sret c =>
      match (s.cur c).traps with
      | [] => none
      | pc :: traps =>
          if s.Closed c then
            some (s.setCur c { s.cpu c with intr := true } { s.cur c with pc := pc, traps := traps })
          else none

/-- A trap comes if interrupts are enabled. -/
def trap (s : State m n) (c : Fin m) : Option (State m n) :=
  if (s.cpu c).intr then
    some (s.setCur c { s.cpu c with intr := false }
      { s.cur c with pc := .code, traps := (s.cur c).pc :: (s.cur c).traps })
  else none

def Act.cpu : Act m n → Fin m
  | .intrOn c | .intrOff c | .pushOff c | .popOff c | .acquire c _ | .release c _ | .go c
  | .sched c _ | .swtch c _ | .setState c _ _ | .trap c | .sret c => c

def Pc.isCode : Pc n → Bool
  | .code => true
  | _ => false

/-- The next state, or `none` if the step is not possible.  After a panic there is
none. -/
def step (s : State m n) (a : Act m n) : Option (State m n) :=
  if s.panic = none then
    match a with
    | .go c => go s c
    | .trap c => trap s c
    | a => if (s.cur a.cpu).pc.isCode then call s a else none
  else none

/-- Every CPU is in its scheduler with interrupts off, and there are no processes. -/
def init (m n : Nat) : State m n where
  cpu _ := ⟨0, false, false, none⟩
  th _ := .fresh n
  lock _ := none
  state _ := .unused
  panic := none

end Steps

/-! ## The invariant -/

section Invariant

variable {m n : Nat} {s s' : State m n} {c c' : Fin m} {k : Cpu n} {x y : Kthread n} {p : Fin n}
  {lock' : Lock n → Option (Fin m)} {lk : Lock n} {t : Thread m n} {st : ProcState} {a : Act m n}

/-- A CPU and the thread on it. -/
structure CpuOk (lock : Lock n → Option (Fin m)) (c : Fin m) (k : Cpu n) (x : Kthread n) :
    Prop where
  noff : k.noff = x.opens + x.held.length
  off : 0 < k.noff → k.intr = false
  push : ∀ old lk, x.pc = .push old lk → k.intr = old
  spin : ∀ lk, x.pc = .spin lk → 0 < x.opens
  held : ∀ lk, lk ∈ x.held ↔ lock lk = some c
  nodup : x.held.Nodup
  /-- Up to the end of `sched` the thread has its `intena` in a local variable. -/
  resume : x.pc = .resume → 0 < k.noff ∧ ∀ e, x.before = some e → x.saved = e
  before : x.pc ≠ .resume → k.cur.isSome → 0 < k.noff → ∀ e, x.before = some e → k.intena = e

/-- A thread that is not on a CPU has not run yet, or it is in `sched`, or it is a
scheduler. -/
structure Parked (t : Thread m n) (x : Kthread n) : Prop where
  opens : x.opens = 0
  held : x.held = []
  pc : x.pc = .code ∨ x.pc = .resume
  saved : x.pc = .resume → ∀ e, x.before = some e → x.saved = e
  fresh : x.pc = .code → ∀ p, t = .proc p → x.before = none

/-- Traps come when interrupts are enabled, so they interrupt `push_off` only before it
disables them. -/
def TrapsOk (x : Kthread n) : Prop := ∀ y ∈ x.traps, y = .code ∨ ∃ lk, y = .push true lk

structure Inv (s : State m n) : Prop where
  ok : ∀ c, CpuOk s.lock c (s.cpu c) (s.cur c)
  traps : ∀ t, TrapsOk (s.th t)
  parked : ∀ t, (∀ c, s.thread c ≠ t) → Parked t (s.th t)
  running : ∀ c p, (s.cpu c).cur = some p → s.state p = .running
  uniq : ∀ c c' p, (s.cpu c).cur = some p → (s.cpu c').cur = some p → c = c'
  panic : s.panic = none ∨ s.panic = some .acquire ∨ s.panic = some .schedRunning

theorem thread_eq_proc : s.thread c = .proc p ↔ (s.cpu c).cur = some p := by
  unfold State.thread
  cases (s.cpu c).cur <;> simp

theorem thread_eq_scheduler : s.thread c = .scheduler c' ↔ (s.cpu c).cur = none ∧ c = c' := by
  unfold State.thread
  cases (s.cpu c).cur <;> simp

theorem Inv.thread_inj (h : Inv s) (ht : s.thread c = s.thread c') : c = c' := by
  cases hc : (s.cpu c).cur with
  | none =>
      rw [thread_eq_scheduler.mpr ⟨hc, rfl⟩] at ht
      exact (thread_eq_scheduler.mp ht.symm).2.symm
  | some p =>
      rw [thread_eq_proc.mpr hc] at ht
      exact h.uniq c c' p hc (thread_eq_proc.mp ht.symm)

theorem Inv.halt (h : Inv s) {e : Panic} (he : e = .acquire ∨ e = .schedRunning) :
    Inv (s.halt e) where
  ok := h.ok
  traps := h.traps
  parked := h.parked
  running := h.running
  uniq := h.uniq
  panic := .inr (he.imp (congrArg some) (congrArg some))

theorem CpuOk.congr_lock {lock : Lock n → Option (Fin m)} (h : CpuOk lock c k x)
    (hl : ∀ lk, lock' lk = some c ↔ lock lk = some c) : CpuOk lock' c k x :=
  ⟨h.noff, h.off, h.push, h.spin, fun lk => (h.held lk).trans (hl lk).symm, h.nodup, h.resume,
    h.before⟩

/-- The thread on a CPU takes a step and stays there.  The locks of other CPUs are as
before. -/
theorem Inv.own (h : Inv s) {lock : Lock n → Option (Fin m)} (hcur : k.cur = (s.cpu c).cur)
    (hok : CpuOk lock c k x) (htraps : TrapsOk x)
    (hl : ∀ c' ≠ c, ∀ lk, lock lk = some c' ↔ s.lock lk = some c') :
    Inv { s.setCur c k x with lock := lock } := by
  have hcurs : ∀ c', (Function.update s.cpu c k c').cur = (s.cpu c').cur := by
    intro c'
    by_cases hc : c' = c
    · rw [hc, Function.update_self, hcur]
    · rw [Function.update_of_ne hc]
  have hthread : ∀ c', State.thread { s.setCur c k x with lock := lock } c' = s.thread c' := by
    intro c'
    show (match (Function.update s.cpu c k c').cur with
      | none => Thread.scheduler c'
      | some p => .proc p) = _
    rw [hcurs]
    rfl
  refine ⟨fun c' => ?_, fun t => ?_, fun t ht => ?_, fun c' p hp => ?_, fun c₁ c₂ p h₁ h₂ => ?_,
    h.panic⟩
  · unfold State.cur
    rw [hthread]
    by_cases hc : c' = c
    · subst hc
      simpa only [State.setCur, Function.update_self] using hok
    · have hne : s.thread c' ≠ s.thread c := fun ht => hc (h.thread_inj ht)
      simp only [State.setCur, Function.update_of_ne hc, Function.update_of_ne hne]
      exact (h.ok c').congr_lock (hl c' hc)
  · show TrapsOk (Function.update s.th (s.thread c) x t)
    by_cases ht : t = s.thread c
    · rw [ht, Function.update_self]
      exact htraps
    · rw [Function.update_of_ne ht]
      exact h.traps t
  · have ht' : ∀ c', s.thread c' ≠ t := fun c' => by
      rw [← hthread c']
      exact ht c'
    show Parked t (Function.update s.th (s.thread c) x t)
    rw [Function.update_of_ne (ht' c).symm]
    exact h.parked t ht'
  · exact h.running c' p (by rw [← hcurs]; exact hp)
  · exact h.uniq c₁ c₂ p (by rw [← hcurs]; exact h₁) (by rw [← hcurs]; exact h₂)

theorem Inv.own_same (h : Inv s) (hcur : k.cur = (s.cpu c).cur) (hok : CpuOk s.lock c k x)
    (htraps : TrapsOk x) : Inv (s.setCur c k x) :=
  h.own hcur hok htraps fun _ _ _ => Iff.rfl

/-! ## Steps -/

/-- The CPU after `pop_off`. -/
def Cpu.popped (k : Cpu n) : Cpu n :=
  { k with noff := k.noff - 1, intr := if k.noff = 1 then k.intena else false }

theorem CpuOk.popOff {lock : Lock n → Option (Fin m)} (h : CpuOk lock c k x)
    (h0 : 0 < x.opens + x.held.length) : k.popOff = .ok k.popped := by
  have hn := h.noff
  have hoff := h.off (by omega)
  have hintr : (if k.noff - 1 = 0 ∧ k.intena = true then true else k.intr) =
      if k.noff = 1 then k.intena else false := by
    rw [hoff]
    by_cases h1 : k.noff = 1
    · cases k.intena <;> simp [h1]
    · have h2 : ¬ k.noff - 1 = 0 := by omega
      simp [h1, h2]
  rw [Cpu.popOff, hoff, if_neg (by simp), if_neg (by omega), Cpu.popped]
  rw [hoff] at hintr
  rw [hintr]

theorem CpuOk.popped {lock : Lock n → Option (Fin m)} (h : CpuOk lock c k x) (hpc : x.pc = .code)
    (hypc : y.pc = .code) (hb : y.before = x.before)
    (hn : y.opens + y.held.length + 1 = x.opens + x.held.length)
    (hheld : ∀ lk, lk ∈ y.held ↔ lock' lk = some c) (hnd : y.held.Nodup) :
    CpuOk lock' c k.popped y := by
  have hk := h.noff
  refine ⟨?_, fun hpos => ?_, ?_, ?_, hheld, hnd, ?_, fun _ hs hpos => ?_⟩
  · show k.noff - 1 = _
    omega
  · have hpos' : 0 < k.noff - 1 := hpos
    exact if_neg (by omega)
  · rw [hypc]
    nofun
  · rw [hypc]
    nofun
  · rw [hypc]
    nofun
  · have hpos' : 0 < k.noff - 1 := hpos
    rw [hb]
    exact h.before (by rw [hpc]; nofun) hs (by omega)

theorem Inv.go (h : Inv s) (hs' : go s c = some s') : Inv s' := by
  have hok := h.ok c
  have htr : TrapsOk (s.cur c) := h.traps _
  simp only [Intr.go] at hs'
  split at hs'
  · cases hs'
  · rename_i old lk hpc
    have hold := hok.push old lk hpc
    -- the CPU after `push_off`
    have hpush : ∀ pc : Pc n, pc ≠ .resume → (∀ old lk, pc ≠ .push old lk) →
        CpuOk s.lock c ((s.cpu c).pushOff old) { s.cur c with
          pc := pc
          opens := (s.cur c).opens + 1
          before := if (s.cpu c).noff = 0 then some (s.cpu c).intr else (s.cur c).before } := by
      intro pc hres hnot
      have hn := hok.noff
      refine ⟨?_, fun _ => rfl, fun o l hp => absurd hp (hnot o l), fun _ _ => Nat.succ_pos _,
        hok.held, hok.nodup, fun hp => absurd hp hres, fun _ hcur _ e he => ?_⟩
      · show (s.cpu c).noff + 1 = ((s.cur c).opens + 1 : Nat) + _
        push_cast
        omega
      · show (if (s.cpu c).noff = 0 then old else (s.cpu c).intena) = e
        by_cases h0 : (s.cpu c).noff = 0
        · simp only [h0, if_true] at he ⊢
          rw [← hold]
          exact Option.some.inj he
        · simp only [h0, if_false] at he ⊢
          exact hok.before (by rw [hpc]; nofun) hcur (by omega) e he
    split at hs'
    · cases hs'
      exact h.own_same rfl (hpush .code nofun nofun) htr
    · split at hs'
      · cases hs'
        exact h.halt (.inl rfl)
      · cases hs'
        exact h.own_same rfl (hpush (.spin _) nofun nofun) htr
  · rename_i lk hpc
    split at hs'
    · rename_i hfree
      cases hs'
      have hopens := hok.spin lk hpc
      have hn := hok.noff
      have hnot : lk ∉ (s.cur c).held := fun hm => by
        rw [(hok.held lk).mp hm] at hfree
        cases hfree
      refine h.own rfl ⟨?_, hok.off, nofun, nofun, fun lk' => ?_,
        List.nodup_cons.mpr ⟨hnot, hok.nodup⟩, nofun, fun _ => hok.before (by rw [hpc]; nofun)⟩ htr
        fun c' hc lk' => ?_
      · show (s.cpu c).noff = ((s.cur c).opens - 1 : Nat) + ((s.cur c).held.length + 1 : Nat)
        omega
      · show _ ↔ Function.update s.lock lk (some c) lk' = some c
        by_cases hl : lk' = lk
        · simp [hl]
        · rw [Function.update_of_ne hl, ← hok.held lk']
          simp [hl]
      · show Function.update s.lock lk (some c) lk' = some c' ↔ _
        by_cases hl : lk' = lk
        · rw [hl, Function.update_self, hfree]
          simp [Ne.symm hc]
        · rw [Function.update_of_ne hl]
    · cases hs'
  · rename_i hpc
    cases hs'
    obtain ⟨hpos, hsaved⟩ := hok.resume hpc
    refine h.own_same rfl ⟨hok.noff, hok.off, nofun, nofun, hok.held, hok.nodup, nofun,
      fun _ _ _ e he => hsaved e he⟩ htr

theorem Inv.trap (h : Inv s) (hs' : trap s c = some s') : Inv s' := by
  have hok := h.ok c
  simp only [Intr.trap] at hs'
  split at hs'
  · rename_i hintr
    cases hs'
    have h0 : ¬ 0 < (s.cpu c).noff := fun hpos => by
      rw [hok.off hpos] at hintr
      cases hintr
    have hn := hok.noff
    refine h.own_same rfl ⟨hok.noff, fun _ => rfl, nofun, nofun, hok.held, hok.nodup, nofun,
      fun _ _ hpos => absurd hpos h0⟩ fun y hy => ?_
    rcases List.mem_cons.mp hy with rfl | hy
    · cases hpc : (s.cur c).pc with
      | code => exact .inl rfl
      | push old lk =>
          rw [← hok.push old lk hpc, hintr]
          exact .inr ⟨lk, rfl⟩
      | spin lk =>
          have := hok.spin lk hpc
          omega
      | resume => exact absurd (hok.resume hpc).1 h0
    · exact h.traps _ y hy
  · cases hs'

theorem setCpu_eq (s : State m n) (c : Fin m) (k : Cpu n) :
    s.setCpu c k = s.setCur c k (s.cur c) := by
  rw [State.setCpu, State.setCur, State.cur, Function.update_eq_self]

theorem Inv.noff_of_closed (h : Inv s) (hcl : s.Closed c) : (s.cpu c).noff = 0 := by
  rw [(h.ok c).noff, hcl.1, hcl.2]
  rfl

/-- The bit changes while nothing is open. -/
theorem Inv.setIntr (h : Inv s) (hcl : s.Closed c) (b : Bool) {pc : Pc n} {traps : List (Pc n)}
    (hpc : pc = .code ∨ b = true ∧ ∃ lk, pc = .push true lk)
    (htraps : ∀ y ∈ traps, y ∈ (s.cur c).traps) :
    Inv (s.setCur c { s.cpu c with intr := b } { s.cur c with pc := pc, traps := traps }) := by
  have hok := h.ok c
  have h0 : ¬ 0 < (s.cpu c).noff := by
    rw [h.noff_of_closed hcl]
    decide
  refine h.own_same rfl ⟨hok.noff, fun hpos => absurd hpos h0, fun old lk hp => ?_, fun lk hp => ?_,
    hok.held, hok.nodup, fun hp => ?_, fun _ _ hpos => absurd hpos h0⟩
    fun y hy => h.traps _ y (htraps y hy)
  · rcases hpc with hpc | ⟨rfl, lk', hpc⟩
    · cases hpc.symm.trans hp
    · cases hpc.symm.trans hp
      rfl
  · rcases hpc with hpc | ⟨rfl, lk', hpc⟩ <;> cases hpc.symm.trans hp
  · rcases hpc with hpc | ⟨rfl, lk', hpc⟩ <;> cases hpc.symm.trans hp

theorem Inv.setBit (h : Inv s) (hpc : (s.cur c).pc = .code) (hcl : s.Closed c) (b : Bool) :
    Inv (s.setCpu c { s.cpu c with intr := b }) := by
  rw [setCpu_eq]
  have hs := h.setIntr hcl b (.inl hpc) (fun _ hy => hy)
  exact hs

theorem Inv.push (h : Inv s) (hpc : (s.cur c).pc = .code) (lk : Option (Lock n)) :
    Inv (s.setCur c (s.cpu c) { s.cur c with pc := .push (s.cpu c).intr lk }) := by
  have hok := h.ok c
  refine h.own_same rfl ⟨hok.noff, hok.off, fun old lk' hp => ?_, nofun, hok.held, hok.nodup, nofun,
    fun _ => hok.before (by rw [hpc]; nofun)⟩ (h.traps _)
  cases hp
  rfl

theorem Inv.popOff (h : Inv s) (hpc : (s.cur c).pc = .code)
    (hs' : call s (.popOff c) = some s') : Inv s' := by
  have hok := h.ok c
  simp only [call] at hs'
  split at hs'
  · rename_i hpos
    rw [hok.popOff (by omega)] at hs'
    cases hs'
    refine h.own_same rfl (hok.popped hpc hpc rfl ?_ hok.held hok.nodup) (h.traps _)
    show (s.cur c).opens - 1 + (s.cur c).held.length + 1 = _
    omega
  · cases hs'

theorem Inv.release (h : Inv s) (hpc : (s.cur c).pc = .code)
    (hs' : call s (.release c lk) = some s') : Inv s' := by
  have hok := h.ok c
  simp only [call] at hs'
  split at hs'
  · rename_i hm
    have hlen := List.length_pos_of_mem hm
    rw [if_neg (not_not_intro ((hok.held lk).mp hm)), hok.popOff (by omega)] at hs'
    cases hs'
    refine h.own rfl (hok.popped hpc hpc rfl ?_ (fun lk' => ?_) (hok.nodup.erase lk)) (h.traps _)
      fun c' hc lk' => ?_
    · show (s.cur c).opens + ((s.cur c).held.erase lk).length + 1 = _
      rw [List.length_erase_of_mem hm]
      omega
    · show lk' ∈ (s.cur c).held.erase lk ↔ Function.update s.lock lk none lk' = some c
      rw [hok.nodup.mem_erase_iff, hok.held lk']
      by_cases hl : lk' = lk
      · simp [hl]
      · simp [hl]
    · show Function.update s.lock lk none lk' = some c' ↔ _
      by_cases hl : lk' = lk
      · rw [hl, Function.update_self, (hok.held lk).mp hm]
        simp [Ne.symm hc]
      · rw [Function.update_of_ne hl]
  · cases hs'

/-- The scheduler of a CPU that runs a process is not on any CPU. -/
theorem Inv.scheduler_parked (h : Inv s) (hcur : (s.cpu c).cur = some p) :
    Parked (.scheduler c) (s.th (.scheduler c)) := by
  refine h.parked _ fun c' hc' => ?_
  obtain ⟨hnone, rfl⟩ := thread_eq_scheduler.mp hc'
  cases hcur.symm.trans hnone

/-- A CPU switches from its thread to the thread `t`, which was on no CPU. -/
theorem Inv.switch (h : Inv s) {o : Option (Fin n)} {x : Kthread n} {st : Fin n → ProcState}
    (ht : (match o with | none => .scheduler c | some p => .proc p) = t)
    (hfree : ∀ c', s.thread c' ≠ t) (hx : Parked (s.thread c) x) (hxt : TrapsOk x)
    (hy : CpuOk s.lock c { s.cpu c with cur := o } y) (hyt : TrapsOk y)
    (hst : ∀ c' ≠ c, ∀ p, (s.cpu c').cur = some p → st p = .running)
    (ho : ∀ p, o = some p → st p = .running) :
    Inv { s with
      cpu := Function.update s.cpu c { s.cpu c with cur := o }
      th := Function.update (Function.update s.th (s.thread c) x) t y
      state := st } := by
  generalize hs' : ({ s with
      cpu := Function.update s.cpu c { s.cpu c with cur := o }
      th := Function.update (Function.update s.th (s.thread c) x) t y
      state := st } : State m n) = s'
  have hcpu : s'.cpu c = { s.cpu c with cur := o } := by
    rw [← hs']
    exact Function.update_self ..
  have hcpu' : ∀ {c'}, c' ≠ c → s'.cpu c' = s.cpu c' := fun hc => by
    rw [← hs']
    exact Function.update_of_ne hc ..
  have hth : s'.thread c = t := by
    rw [State.thread, hcpu]
    exact ht
  have hth' : ∀ {c'}, c' ≠ c → s'.thread c' = s.thread c' := fun hc => by
    rw [State.thread, hcpu' hc, State.thread]
  have hty : s'.th t = y := by
    rw [← hs']
    exact Function.update_self ..
  have htx : s'.th (s.thread c) = x := by
    rw [← hs']
    show Function.update (Function.update s.th (s.thread c) x) t y (s.thread c) = x
    rw [Function.update_of_ne (hfree c), Function.update_self]
  have hother : ∀ {u}, u ≠ t → u ≠ s.thread c → s'.th u = s.th u := fun h1 h2 => by
    rw [← hs']
    show Function.update (Function.update s.th (s.thread c) x) t y _ = _
    rw [Function.update_of_ne h1, Function.update_of_ne h2]
  have hlock : s'.lock = s.lock := by rw [← hs']
  have hstate : s'.state = st := by rw [← hs']
  have hnew : ∀ {c' p}, c' ≠ c → o = some p → (s.cpu c').cur ≠ some p := by
    intro c' p hc hp hcur
    rw [hp] at ht
    exact hfree c' ((thread_eq_proc.mpr hcur).trans ht)
  refine ⟨fun c' => ?_, fun u => ?_, fun u hu => ?_, fun c' p hp => ?_, fun c₁ c₂ p h₁ h₂ => ?_, ?_⟩
  · rw [hlock]
    by_cases hc : c' = c
    · subst hc
      rw [State.cur, hth, hty, hcpu]
      exact hy
    · rw [State.cur, hth' hc, hcpu' hc,
        hother (hfree c') (fun he => hc (h.thread_inj he))]
      exact h.ok c'
  · by_cases h1 : u = t
    · rw [h1, hty]
      exact hyt
    · by_cases h2 : u = s.thread c
      · rw [h2, htx]
        exact hxt
      · rw [hother h1 h2]
        exact h.traps u
  · have h1 : u ≠ t := fun he => hu c (hth.trans he.symm)
    by_cases h2 : u = s.thread c
    · rw [h2, htx]
      exact hx
    · rw [hother h1 h2]
      refine h.parked u fun c' hc' => ?_
      by_cases hc : c' = c
      · exact h2 (by rw [← hc', hc])
      · exact hu c' ((hth' hc).trans hc')
  · rw [hstate]
    by_cases hc : c' = c
    · rw [hc, hcpu] at hp
      exact ho p hp
    · rw [hcpu' hc] at hp
      exact hst c' hc p hp
  · by_cases hc₁ : c₁ = c
    · by_cases hc₂ : c₂ = c
      · rw [hc₁, hc₂]
      · rw [hc₁, hcpu] at h₁
        rw [hcpu' hc₂] at h₂
        exact absurd h₂ (hnew hc₂ h₁)
    · rw [hcpu' hc₁] at h₁
      by_cases hc₂ : c₂ = c
      · rw [hc₂, hcpu] at h₂
        exact absurd h₁ (hnew hc₁ h₂)
      · rw [hcpu' hc₂] at h₂
        exact h.uniq c₁ c₂ p h₁ h₂
  · rw [← hs']
    exact h.panic

theorem Parked.not_push (h : Parked t x) {old : Bool} {lk : Option (Lock n)} :
    x.pc ≠ .push old lk := by
  rcases h.pc with hq | hq <;> rw [hq] <;> nofun

theorem Parked.not_spin (h : Parked t x) : x.pc ≠ .spin lk := by
  rcases h.pc with hq | hq <;> rw [hq] <;> nofun

/-- A CPU on which exactly the lock of a process is held, and the thread that it
switches to. -/
theorem CpuOk.handover {lock : Lock n → Option (Fin m)} (h : CpuOk lock c k x) (ho : x.opens = 0)
    (hh : x.held = [.proc p]) (hy : Parked t y) (o : Option (Fin n))
    (hb : y.pc = .code → o.isSome → y.before = none) :
    CpuOk lock c { k with cur := o } { y with held := [.proc p] } := by
  have hnoff : k.noff = 1 := by
    rw [h.noff, ho, hh]
    rfl
  refine ⟨?_, h.off, fun old lk hp => absurd hp hy.not_push, fun lk hp => absurd hp hy.not_spin,
    fun lk => by rw [← h.held lk, hh], List.nodup_singleton _,
    fun hp => ⟨by show 0 < k.noff; omega, hy.saved hp⟩, fun hp hs _ e he => ?_⟩
  · show k.noff = y.opens + _
    rw [hnoff, hy.opens]
    rfl
  · rw [hb (hy.pc.resolve_right hp) hs] at he
    cases he

theorem Inv.sched (h : Inv s) (hpc : (s.cur c).pc = .code) (hcur : (s.cpu c).cur = some p)
    (ho : (s.cur c).opens = 0) (hh : (s.cur c).held = [.proc p]) : Inv (s.sched c p st) := by
  have hok := h.ok c
  have hth : s.thread c = .proc p := thread_eq_proc.mpr hcur
  have hnoff : (s.cpu c).noff = 1 := by
    rw [hok.noff, ho, hh]
    rfl
  have hintr := hok.off (by omega)
  unfold State.sched
  rw [if_neg (not_not_intro ((hok.held _).mp (by rw [hh]; exact List.mem_singleton_self _))),
    if_neg (not_not_intro hnoff)]
  split
  · exact h.halt (.inr rfl)
  rw [hintr, if_neg (by simp)]
  have hsch := h.scheduler_parked hcur
  have hx : s.cur c = s.th (.proc p) := by rw [State.cur, hth]
  -- the thread of the process waits in `sched`, with its `intena`
  have hproc : Parked (s.thread c) { s.th (.proc p) with
      pc := .resume, saved := (s.cpu c).intena, held := [] } := by
    rw [← hx]
    refine ⟨ho, rfl, .inr rfl, fun _ e he => ?_, nofun⟩
    exact hok.before (by rw [hpc]; nofun) (by rw [hcur]; rfl) (by omega) e he
  rw [← hth] at hproc ⊢
  refine h.switch rfl (fun c' hc' => ?_) hproc (h.traps _) (hok.handover ho hh hsch none nofun)
    (h.traps _) (fun c' hc q hq => ?_) nofun
  · obtain ⟨hnone, rfl⟩ := thread_eq_scheduler.mp hc'
    cases hcur.symm.trans hnone
  · have hqp : q ≠ p := fun he => hc (h.uniq c' c p (he ▸ hq) hcur)
    rw [Function.update_of_ne hqp]
    exact h.running c' q hq

theorem Inv.swtch (h : Inv s) (hpc : (s.cur c).pc = .code) (hcur : (s.cpu c).cur = none)
    (ho : (s.cur c).opens = 0) (hh : (s.cur c).held = [.proc p]) (hst : s.state p = .runnable) :
    Inv (s.swtch c p) := by
  have hth : s.thread c = .scheduler c := thread_eq_scheduler.mpr ⟨hcur, rfl⟩
  have hx : s.cur c = s.th (.scheduler c) := by rw [State.cur, hth]
  have hfree : ∀ c', s.thread c' ≠ .proc p := fun c' hc' => by
    cases hst.symm.trans (h.running c' p (thread_eq_proc.mp hc'))
  have hp := h.parked _ hfree
  have hsch : Parked (s.thread c) { s.th (.scheduler c) with held := [] } := by
    rw [hth, ← hx]
    exact ⟨ho, rfl, .inl hpc, fun hr => (by cases hpc.symm.trans hr), fun _ q hq => (by cases hq)⟩
  unfold State.swtch
  rw [← hth] at hsch ⊢
  refine h.switch rfl hfree hsch (h.traps _)
    ((h.ok c).handover ho hh hp (some p) fun hc _ => hp.fresh hc p rfl)
    (h.traps _) (fun c' hc q hq => ?_) fun q hq => ?_
  · have hqp : q ≠ p := fun he => hfree c' (thread_eq_proc.mpr (he ▸ hq))
    rw [Function.update_of_ne hqp]
    exact h.running c' q hq
  · cases hq
    exact Function.update_self ..

theorem Inv.setState (h : Inv s) {q : Fin n} (hmay : State.mayBecome (s.state q) st) :
    Inv { s with
      state := Function.update s.state q st
      th := if st = .used then Function.update s.th (.proc q) (.fresh n) else s.th } := by
  have hnot : s.state q ≠ .running := by
    intro hr
    rw [hr] at hmay
    cases st <;> cases hmay
  have hfree : ∀ c', s.thread c' ≠ .proc q := fun c' hc' =>
    hnot (h.running c' q (thread_eq_proc.mp hc'))
  have hth : ∀ t, t ≠ .proc q →
      (if st = .used then Function.update s.th (.proc q) (.fresh n) else s.th) t = s.th t := by
    intro t ht
    split
    · exact Function.update_of_ne ht ..
    · rfl
  have hq : (if st = .used then Function.update s.th (.proc q) (.fresh n) else s.th) (.proc q) =
      .fresh n ∨ (if st = .used then Function.update s.th (.proc q) (.fresh n) else s.th) (.proc q) =
      s.th (.proc q) := by
    split
    · exact .inl (Function.update_self ..)
    · exact .inr rfl
  refine ⟨fun c' => ?_, fun t => ?_, fun t ht => ?_, fun c' p hp => ?_, h.uniq, h.panic⟩
  · show CpuOk s.lock c' (s.cpu c') ((if st = .used then _ else s.th) (s.thread c'))
    rw [hth _ (hfree c')]
    exact h.ok c'
  · by_cases htq : t = .proc q
    · rw [htq]
      rcases hq with hq | hq
      · show TrapsOk ((if st = .used then _ else s.th) (.proc q))
        rw [hq]
        nofun
      · show TrapsOk ((if st = .used then _ else s.th) (.proc q))
        rw [hq]
        exact h.traps _
    · show TrapsOk ((if st = .used then _ else s.th) t)
      rw [hth t htq]
      exact h.traps t
  · show Parked t ((if st = .used then _ else s.th) t)
    by_cases htq : t = .proc q
    · rw [htq] at ht ⊢
      rcases hq with hq | hq
      · rw [hq]
        exact ⟨rfl, rfl, .inl rfl, nofun, fun _ _ _ => rfl⟩
      · rw [hq]
        exact h.parked _ ht
    · rw [hth t htq]
      exact h.parked t ht
  · have hpq : p ≠ q := fun he => hfree c' (thread_eq_proc.mpr (he ▸ hp))
    show Function.update s.state q st p = .running
    rw [Function.update_of_ne hpq]
    exact h.running c' p hp

theorem Inv.call (h : Inv s) (hpc : (s.cur a.cpu).pc = .code) (hs' : call s a = some s') :
    Inv s' := by
  cases a with
  | intrOn c =>
      simp only [Intr.call] at hs'
      split at hs'
      · rename_i hcl
        cases hs'
        exact h.setBit hpc hcl true
      · cases hs'
  | intrOff c =>
      simp only [Intr.call] at hs'
      split at hs'
      · rename_i hcl
        cases hs'
        exact h.setBit hpc hcl false
      · cases hs'
  | pushOff c =>
      cases hs'
      exact h.push hpc none
  | popOff c => exact h.popOff hpc hs'
  | acquire c lk =>
      cases hs'
      exact h.push hpc (some lk)
  | release c lk => exact h.release hpc hs'
  | go c => cases hs'
  | trap c => cases hs'
  | sched c st =>
      simp only [Intr.call] at hs'
      split at hs'
      · cases hs'
      · rename_i p hcur
        split at hs'
        · rename_i hg
          cases hs'
          exact h.sched hpc hcur hg.1 hg.2
        · cases hs'
  | swtch c p =>
      simp only [Intr.call] at hs'
      split at hs'
      · rename_i hg
        cases hs'
        exact h.swtch hpc hg.1 hg.2.1 hg.2.2.1 hg.2.2.2
      · cases hs'
  | setState c q st =>
      simp only [Intr.call] at hs'
      split at hs'
      · rename_i hg
        cases hs'
        exact h.setState hg.2
      · cases hs'
  | sret c =>
      simp only [Intr.call] at hs'
      split at hs'
      · cases hs'
      · rename_i pc traps htr
        split at hs'
        · rename_i hcl
          cases hs'
          refine h.setIntr hcl true ?_ fun y hy => by rw [htr]; exact List.mem_cons_of_mem _ hy
          exact (h.traps _ pc (by rw [show (s.th (s.thread c)).traps = _ from htr]; exact List.mem_cons_self)).imp_right
            fun hx => ⟨rfl, hx⟩
        · cases hs'

theorem Pc.isCode_iff {pc : Pc n} : pc.isCode = true ↔ pc = .code := by
  cases pc <;> simp [Pc.isCode]

theorem step_cases (h : step s a = some s') :
    (∃ c, a = .go c ∧ go s c = some s') ∨ (∃ c, a = .trap c ∧ trap s c = some s') ∨
      (s.cur a.cpu).pc = .code ∧ call s a = some s' := by
  unfold step at h
  split at h
  · split at h
    · exact .inl ⟨_, rfl, h⟩
    · exact .inr (.inl ⟨_, rfl, h⟩)
    · split at h
      · rename_i hpc
        exact .inr (.inr ⟨Pc.isCode_iff.mp hpc, h⟩)
      · cases h
  · cases h

theorem Inv.step (h : Inv s) (hs' : step s a = some s') : Inv s' := by
  rcases step_cases hs' with ⟨c, rfl, hg⟩ | ⟨c, rfl, ht⟩ | ⟨hpc, hc⟩
  · exact h.go hg
  · exact h.trap ht
  · exact h.call hpc hc

theorem Inv.init (m n : Nat) : Inv (init m n) :=
  ⟨fun _ => ⟨rfl, fun _ => rfl, nofun, nofun, fun _ => by simp [State.cur, Intr.init, Kthread.fresh],
      List.nodup_nil, nofun, nofun⟩,
    fun _ => nofun, fun _ _ => ⟨rfl, rfl, .inl rfl, nofun, fun _ _ _ => rfl⟩, nofun, nofun, .inl rfl⟩

theorem Inv.exec {as : List (Act m n)} (h : Run.exec Intr.step (Intr.init m n) as = some s) : Inv s :=
  Run.exec_invariant (fun _ _ _ hi hs => hi.step hs) (.init m n) h

/-! ## The outermost `pop_off` -/

/-- What a step does to `noff` of a CPU. -/
inductive NoffMove (x : Kthread n) (k k' : Cpu n) : Prop where
  | same (h : k'.noff = k.noff)
  | push (h : k'.noff = k.noff + 1)
  | pop (hpc : x.pc = .code) (h : k.popOff = .ok k')

theorem NoffMove.update (h : NoffMove (s.cur c') (s.cpu c') k) (c : Fin m) :
    NoffMove (s.cur c) (s.cpu c) (Function.update s.cpu c' k c) := by
  by_cases hc : c = c'
  · subst hc
    rw [Function.update_self]
    exact h
  · rw [Function.update_of_ne hc]
    exact .same rfl

theorem NoffMove.sched (c : Fin m) : NoffMove (s.cur c) (s.cpu c) ((s.sched c' p st).cpu c) := by
  unfold State.sched
  split
  · exact .same rfl
  split
  · exact .same rfl
  split
  · exact .same rfl
  split
  · exact .same rfl
  · refine NoffMove.update ?_ c
    exact .same rfl

theorem NoffMove.go (h : go s c' = some s') (c : Fin m) :
    NoffMove (s.cur c) (s.cpu c) (s'.cpu c) := by
  simp only [Intr.go] at h
  split at h
  · cases h
  · split at h
    · cases h
      exact NoffMove.update (.push rfl) c
    · split at h
      · cases h
        exact .same rfl
      · cases h
        exact NoffMove.update (.push rfl) c
  · split at h
    · cases h
      refine NoffMove.update ?_ c
      exact .same rfl
    · cases h
  · cases h
    refine NoffMove.update ?_ c
    exact .same rfl

theorem NoffMove.trap (h : trap s c' = some s') (c : Fin m) :
    NoffMove (s.cur c) (s.cpu c) (s'.cpu c) := by
  simp only [Intr.trap] at h
  split at h
  · cases h
    refine NoffMove.update ?_ c
    exact .same rfl
  · cases h

theorem NoffMove.call (hpc : (s.cur a.cpu).pc = .code) (h : call s a = some s') (c : Fin m) :
    NoffMove (s.cur c) (s.cpu c) (s'.cpu c) := by
  cases a with
  | intrOn c' | intrOff c' | swtch c' p =>
      simp only [Intr.call] at h
      split at h
      · cases h
        refine NoffMove.update ?_ c
        exact .same rfl
      · cases h
  | setState c' q st =>
      simp only [Intr.call] at h
      split at h
      · cases h
        exact .same rfl
      · cases h
  | pushOff c' | acquire c' lk =>
      cases h
      refine NoffMove.update ?_ c
      exact .same rfl
  | popOff c' =>
      simp only [Intr.call] at h
      split at h
      · split at h
        · cases h
          exact .same rfl
        · rename_i k hk
          cases h
          exact NoffMove.update (.pop hpc hk) c
      · cases h
  | release c' lk =>
      simp only [Intr.call] at h
      split at h
      · split at h
        · cases h
          exact .same rfl
        · split at h
          · cases h
            exact .same rfl
          · rename_i k hk
            cases h
            exact NoffMove.update (.pop hpc hk) c
      · cases h
  | go c' => cases h
  | trap c' => cases h
  | sched c' st =>
      simp only [Intr.call] at h
      split at h
      · cases h
      · split at h
        · cases h
          exact .sched c
        · cases h
  | sret c' =>
      simp only [Intr.call] at h
      split at h
      · cases h
      · split at h
        · cases h
          refine NoffMove.update ?_ c
          exact .same rfl
        · cases h

/-- Only `pop_off` brings `noff` down to zero. -/
theorem popOff_of_step (h : step s a = some s') (hpos : 0 < (s.cpu c).noff)
    (hz : (s'.cpu c).noff = 0) :
    (s.cur c).pc = .code ∧ (s.cpu c).popOff = .ok (s'.cpu c) := by
  have hmove : NoffMove (s.cur c) (s.cpu c) (s'.cpu c) := by
    rcases step_cases h with ⟨c', rfl, hg⟩ | ⟨c', rfl, ht⟩ | ⟨hpc, hc⟩
    · exact .go hg c
    · exact .trap ht c
    · exact .call hpc hc c
  cases hmove with
  | same hk => omega
  | push hk => omega
  | pop hpc hk => exact ⟨hpc, hk⟩

/-- The bit after the outermost `pop_off` is `intena`. -/
theorem Cpu.popOff_intr {k' : Cpu n} (h : k.popOff = .ok k') (hz : k'.noff = 0) :
    k'.intr = k.intena := by
  unfold Cpu.popOff at h
  split at h
  · cases h
  · rename_i hintr
    split at h
    · cases h
    · cases h
      have h0 : k.noff - 1 = 0 := hz
      show (if k.noff - 1 = 0 ∧ k.intena = true then true else k.intr) = k.intena
      cases hi : k.intena <;> simp [h0, hintr]

theorem Inv.restore (h : Inv s) {e : Bool} (hs' : Intr.step s a = some s')
    (hcur : (s.cpu c).cur = some p) (hpos : 0 < (s.cpu c).noff) (hz : (s'.cpu c).noff = 0)
    (hb : (s.th (.proc p)).before = some e) : (s'.cpu c).intr = e := by
  obtain ⟨hpc, hpop⟩ := popOff_of_step hs' hpos hz
  rw [Cpu.popOff_intr hpop hz]
  refine (h.ok c).before (by rw [hpc]; nofun) (by rw [hcur]; rfl) hpos e ?_
  rw [State.cur, thread_eq_proc.mpr hcur]
  exact hb

/-- On every CPU `noff` counts the locks that its thread holds and the calls of `push_off`
that it has not closed, and interrupts are disabled while there are any.  None of the
checks in `pop_off`, `release` and `sched` fails that depend on them.  The outermost
`pop_off` of a process, wherever the process runs by then, leaves the bit that its
outermost `push_off` found. -/
theorem interrupt_nesting (m n : Nat) {as : List (Act m n)} {s : State m n}
    (h : Run.exec step (init m n) as = some s) :
    (∀ c, (s.cpu c).noff = (s.cur c).held.length + (s.cur c).opens ∧
      (s.cur c).held.Nodup ∧ (∀ lk, lk ∈ (s.cur c).held ↔ s.lock lk = some c) ∧
      (0 < (s.cpu c).noff → (s.cpu c).intr = false)) ∧
    (s.panic = none ∨ s.panic = some .acquire ∨ s.panic = some .schedRunning) ∧
    ∀ a s' c p e, step s a = some s' → (s.cpu c).cur = some p → 0 < (s.cpu c).noff →
      (s'.cpu c).noff = 0 → (s.th (.proc p)).before = some e → (s'.cpu c).intr = e := by
  have hi := Inv.exec h
  refine ⟨fun c => ?_, hi.panic, fun a s' c p e hs' hcur hpos hz hb => hi.restore hs' hcur hpos hz hb⟩
  have hok := hi.ok c
  exact ⟨by rw [hok.noff]; omega, hok.nodup, hok.held, hok.off⟩

end Invariant

/-- The process yields on CPU 0 with interrupts enabled, and CPU 1, whose interrupts were
disabled, takes it up to its last `release`. -/
def migration : List (Act 2 1) :=
  [.acquire 0 (.proc 0), .go 0, .go 0, .setState 0 0 .used, .setState 0 0 .runnable, .swtch 0 0,
    .release 0 (.proc 0), .intrOn 0, .acquire 0 (.proc 0), .go 0, .go 0, .sched 0 .runnable,
    .release 0 (.proc 0), .acquire 1 (.proc 0), .go 1, .go 1, .swtch 1 0, .go 1]

theorem interrupt_nesting_migration :
    ∃ s s', Run.exec step (init 2 1) migration = some s ∧
      step s (.release 1 (.proc 0)) = some s' ∧ (s'.cpu 1).intr = true := by
  obtain ⟨s, hs, hcur, hpos, hb, hz⟩ := Run.exists_exec_of_check
    (show ((Run.exec step (init 2 1) migration).any fun s => decide
      ((s.cpu 1).cur = some 0 ∧ 0 < (s.cpu 1).noff ∧ (s.th (.proc 0)).before = some true ∧
        (step s (.release 1 (.proc 0))).any fun s' => (s'.cpu 1).noff = 0)) = true by
      decide +kernel)
  cases hs' : step s (.release 1 (.proc 0)) with
  | none =>
      rw [hs'] at hz
      cases hz
  | some s' =>
      rw [hs'] at hz
      exact ⟨s, s', hs, hs', (interrupt_nesting 2 1 hs).2.2 _ s' 1 0 true hs' hcur hpos
        (of_decide_eq_true hz) hb⟩

end Xv6.Intr
