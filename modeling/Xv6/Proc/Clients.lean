import Xv6.Proc.Sleepers

/-!
# Processes that wait for a condition

Processes that use a lock `lk`, a channel `chan` and a condition.  Consumers run
`acquire(lk); while(!cond) sleep(chan, lk)`, may then clear the condition, and
release the lock.  Producers run
`acquire(lk); cond = 1; wakeup(chan); release(lk)`.  All other processes do what
they like, without `lk` and without sleeping on `chan`.  Interrupts and other
processes may also call `wakeup(chan)`.

`ClientInv` says where the stack of each process is in the protocol and which
process has `lk`.
-/

namespace Xv6

variable {m n : Nat}

/-! ## The clients -/

/-- Where a process is in the protocol. -/
inductive Role where
  /-- Outside. -/
  | idle
  /-- A consumer in its loop, about to test the condition or in `sleep`. -/
  | loop
  /-- A consumer after its loop. -/
  | done
  /-- A producer that has the lock. -/
  | set
  /-- A producer that has set the condition. -/
  | wake
  /-- A producer in `wakeup`, or after it. -/
  | woken
deriving DecidableEq

structure Clients (m n : Nat) where
  sys : Sys m n
  cond : Bool
  role : Fin n → Role

/-- What the clients and the rest of the system do. -/
inductive ClientAct (m n : Nat) where
  | sys (a : SchedAct m n)
  /-- `acquire(lk)` of a consumer. -/
  | consume (c : Fin m) (p : Fin n)
  /-- The test of the loop, with the call of `sleep`. -/
  | test (c : Fin m) (p : Fin n)
  /-- A consumer clears the condition. -/
  | clear (c : Fin m) (p : Fin n)
  /-- `acquire(lk)` of a producer. -/
  | produce (c : Fin m) (p : Fin n)
  /-- `cond = 1`. -/
  | set (c : Fin m) (p : Fin n)
  /-- The call of `wakeup`. -/
  | wakeup (c : Fin m) (p : Fin n)
  | release (c : Fin m) (p : Fin n)

/-- A call that does not use the lock `k` and does not sleep on `chan`. -/
def Call.Avoids (k : Nat) (chan : Chan n) (p : Fin n) : Call n → Prop
  | .sleep chan' k' => chan' ≠ chan ∧ k' ≠ k
  | .wait => chan ≠ .proc p
  | _ => True

instance (k : Nat) (chan : Chan n) (p : Fin n) : (f : Call n) → Decidable (f.Avoids k chan p)
  | .sleep chan' k' => inferInstanceAs (Decidable (chan' ≠ chan ∧ k' ≠ k))
  | .wait => inferInstanceAs (Decidable (chan ≠ .proc p))
  | .yield | .wakeup _ | .kill _ | .setkilled | .killed | .exit _ | .fork => .isTrue trivial

namespace Clients

variable (k : Nat) (chan : Chan n)

/-- The process on the CPU is between calls, in the given role. -/
def Turn (s : Clients m n) (c : Fin m) (p : Fin n) (r : Role) : Prop :=
  s.sys.panic = none ∧ (s.sys.cpu c).cur = some p ∧ s.sys.stack (.proc p) = [] ∧ s.role p = r

instance (s : Clients m n) (c : Fin m) (p : Fin n) (r : Role) : Decidable (s.Turn c p r) :=
  inferInstanceAs (Decidable (_ ∧ _ ∧ _ ∧ _))

/-- The steps that are not steps of the protocol. -/
def Allows (s : Clients m n) : SchedAct m n → Prop
  | .run _ _ | .timer _ | .intr _ _ => True
  | .call c f => ∃ p, (s.sys.cpu c).cur = some p ∧ s.role p = .idle ∧ f.Avoids k chan p
  | .acquire c k' | .release c k' => ∃ p, (s.sys.cpu c).cur = some p ∧ s.role p = .idle ∧ k' ≠ k

instance (s : Clients m n) : (a : SchedAct m n) → Decidable (s.Allows k chan a)
  | .run _ _ | .timer _ | .intr _ _ => .isTrue trivial
  | .call c f => inferInstanceAs (Decidable (∃ p, (s.sys.cpu c).cur = some p ∧ s.role p = .idle ∧
      f.Avoids k chan p))
  | .acquire c k' | .release c k' => inferInstanceAs (Decidable (∃ p, (s.sys.cpu c).cur = some p ∧
      s.role p = .idle ∧ k' ≠ k))

/-- A step of the system in which the role of `p` changes. -/
def withRole (s : Clients m n) (a : SchedAct m n) (p : Fin n) (r : Role) : Option (Clients m n) :=
  (schedStep s.sys a).map fun sys => { s with sys := sys, role := Function.update s.role p r }

end Clients

/-- The next state, or `none` if the step is not possible. -/
def clientStep (k : Nat) (chan : Chan n) (s : Clients m n) : ClientAct m n → Option (Clients m n)
  | .sys a =>
      if s.Allows k chan a then (schedStep s.sys a).map fun sys => { s with sys := sys } else none
  | .consume c p => if s.Turn c p .idle then s.withRole (.acquire c k) p .loop else none
  | .test c p =>
      if s.Turn c p .loop then
        if s.cond then some { s with role := Function.update s.role p .done }
        else s.withRole (.call c (.sleep chan k)) p .loop
      else none
  | .clear c p => if s.Turn c p .done then some { s with cond := false } else none
  | .produce c p => if s.Turn c p .idle then s.withRole (.acquire c k) p .set else none
  | .set c p =>
      if s.Turn c p .set then
        some { s with cond := true, role := Function.update s.role p .wake }
      else none
  | .wakeup c p => if s.Turn c p .wake then s.withRole (.call c (.wakeup chan)) p .woken else none
  | .release c p =>
      if s.Turn c p .done ∨ s.Turn c p .woken then s.withRole (.release c k) p .idle else none

/-- The first state, with any condition. -/
def Clients.init (m n : Nat) (initproc : Fin n) (cond : Bool) : Clients m n :=
  ⟨Sys.init m n initproc, cond, fun _ => .idle⟩

/-! ## The stages of a client -/

/-- A frame that has nothing to do with the protocol. -/
def Frame.Foreign (k : Nat) (chan : Chan n) : Frame n → Prop
  | .sleep _ chan' lk _ => chan' ≠ chan ∧ lk ≠ .other k
  | .wait p _ => chan ≠ .proc p
  | _ => True

/-- A frame of an interrupt. -/
def Frame.Intr : Frame n → Prop
  | .yield _ _ | .wakeup _ _ => True
  | _ => False

/-- The points of `sleep` at which the caller's lock is still held. -/
def SleepPc.locked : SleepPc → Bool
  | .acquire | .releaseLk => true
  | _ => false

/-- The stack of the process `p` in a role, and whether it has the lock. -/
inductive Stage (k : Nat) (chan : Chan n) (p : Fin n) : Role → List (Frame n) → Bool → Prop where
  | idle {st} : (∀ f ∈ st, f.Foreign k chan) → Stage k chan p .idle st false
  | test : Stage k chan p .loop [] true
  | sleep (pc) : Stage k chan p .loop [.sleep p chan (.other k) pc] pc.locked
  /-- Interrupts come while `sleep` waits for the lock. -/
  | intr {fs} : (∀ f ∈ fs, f.Intr) →
      Stage k chan p .loop (fs ++ [.sleep p chan (.other k) .acquireLk]) false
  | done : Stage k chan p .done [] true
  | set : Stage k chan p .set [] true
  | wake : Stage k chan p .wake [] true
  | waking (pc) : Stage k chan p .woken [.wakeup chan pc] true
  | woken : Stage k chan p .woken [] true

/-- The process is on a CPU that holds the lock. -/
def Sys.Holds (s : Sys m n) (lk : Lock n) (p : Fin n) : Prop :=
  ∃ c, (s.cpu c).cur = some p ∧ (lk, c) ∈ s.locks

/-- The clients are in their stages, and no scheduler has the lock. -/
structure ClientInv (k : Nat) (chan : Chan n) (s : Clients m n) : Prop where
  base : SchedInv s.sys
  chanSet : s.sys.ChanSet
  stage : ∀ p, ∃ b, Stage k chan p (s.role p) (s.sys.stack (.proc p)) b ∧
    (b = true ↔ s.sys.Holds (.other k) p)
  live : ∀ p, s.role p ≠ .idle → (s.sys.proc p).state.Live
  held : ∀ c, (.other k, c) ∈ s.sys.locks → ∃ p, (s.sys.cpu c).cur = some p

theorem Sys.Holds.eq {s : Sys m n} (h : SchedInv s) {lk : Lock n} {p q : Fin n}
    (hp : s.Holds lk p) (hq : s.Holds lk q) : p = q := by
  obtain ⟨c, hcp, hc⟩ := hp
  obtain ⟨c', hcq, hc'⟩ := hq
  cases h.locks.one.holder_eq hc hc'
  exact Option.some.inj (hcp.symm.trans hcq)

theorem Frame.Foreign.leads {k : Nat} {chan : Chan n} {f g : Frame n} (h : f.Foreign k chan)
    (hl : f.Leads g) : g.Foreign k chan := by
  cases hl with
  | sleep => exact h
  | wait => exact h
  | waitSleep p pc => exact ⟨fun he => h he.symm, by simp⟩
  | _ => trivial

theorem Frame.Intr.leads {f g : Frame n} (h : f.Intr) (hl : f.Leads g) : g.Intr := by
  cases hl <;> first | exact trivial | exact h.elim

theorem Frame.Foreign.not_sleepsWith {k : Nat} {chan : Chan n} {f : Frame n}
    (h : f.Foreign k chan) : ¬ f.SleepsWith (.other k) := by
  cases f with
  | sleep p chan' lk pc => exact h.2
  | _ => exact id

/-- What a step of CPU `c` leaves of the processes that are not on it. -/
structure Beside (k : Nat) (s s' : Sys m n) (c : Fin m) : Prop where
  curs : ∀ c', c' ≠ c → (s'.cpu c').cur = (s.cpu c').cur
  locks : ∀ c', c' ≠ c → ((.other k, c') ∈ s'.locks ↔ (.other k, c') ∈ s.locks)
  stack : ∀ q, (s.cpu c).cur ≠ some q → s'.stack (.proc q) = s.stack (.proc q) ∨
    ((s.proc q).state = .used ∧ s'.stack (.proc q) = [.forkret q])
  live : ∀ q, (s.cpu c).cur ≠ some q → (s.proc q).state.Live → (s'.proc q).state.Live
  switch : ∀ q, (s.cpu c).cur ≠ some q → (s'.cpu c).cur = some q →
    (s.cpu c).cur = none ∧ ((.other k, c) ∈ s'.locks → (.other k, c) ∈ s.locks)

/-! ## All steps -/

theorem cur_lock (x : Sys m n) (c c' : Fin m) (lk : Lock n) :
    ((x.lock c lk).cpu c').cur = (x.cpu c').cur :=
  cur_setCpu_noff x c c' (fun r => { r with noff := r.noff + 1 }) fun _ => rfl

theorem cur_unlock (x : Sys m n) (c c' : Fin m) (lk : Lock n) :
    ((x.unlock c lk).cpu c').cur = (x.cpu c').cur :=
  cur_setCpu_noff x c c' (fun r => { r with noff := r.noff - 1 }) fun _ => rfl

section Acts

variable {s s' : Sys m n}

/-- The CPU that acts. -/
def SchedAct.cpu : SchedAct m n → Fin m
  | .run c _ | .call c _ | .acquire c _ | .release c _ | .timer c | .intr c _ => c

/-- The steps of the system. -/
inductive Acts (s : Sys m n) : SchedAct m n → Sys m n → Prop where
  | run {c ok s'} : schedAct s (.run c ok) = some s' → Acts s (.run c ok) s'
  | halt (a e) : Acts s a (s.halt e)
  | call {c p} (f) : (s.cpu c).cur = some p → s.stack (s.thread c) = [] →
      (∀ status, f = .exit status → p ≠ s.initproc) →
      Acts s (.call c f) (s.setStack (s.thread c) [Call.frame p f])
  | lock (c k) : Acts s (.acquire c k) (s.lock c (.other k))
  | unlock (c k) : Acts s (.release c k) (s.unlock c (.other k))
  | interrupt {a g} : (s.cpu a.cpu).noff = 0 → g.Intr →
      Acts s a (s.setStack (s.thread a.cpu) (g :: s.stack (s.thread a.cpu)))

theorem SchedInv.acts (h : SchedInv s) {a : SchedAct m n} (hs' : schedAct s a = some s') :
    Acts s a s' := by
  cases a with
  | run c ok => exact .run hs'
  | call c f =>
      simp only [schedAct] at hs'
      split at hs'
      · rename_i hst
        have hcur : ∀ {p}, (s.cpu c).proc = some p → (s.cpu c).cur = some p := fun hp =>
          h.cur_of_proc hp (by rw [hst]; rfl)
        split at hs'
        · cases hs'
        · rename_i p status hp
          split at hs'
          · cases hs'
            exact .halt ..
          · rename_i hne
            cases hs'
            exact .call _ (hcur hp) hst fun _ _ => hne
        · rename_i p hp hno
          cases hs'
          exact .call _ (hcur hp) hst fun status hf => absurd hf (hno status)
      · cases hs'
  | acquire c k =>
      simp only [schedAct, Sys.acquire] at hs'
      split at hs'
      · split at hs'
        · cases hs'
          exact .halt ..
        · split at hs' <;> cases hs'
          exact .lock c k
      · cases hs'
  | release c k =>
      simp only [schedAct, Sys.release] at hs'
      split at hs'
      · split at hs' <;> cases hs'
        · exact .unlock c k
        · exact .halt ..
      · cases hs'
  | timer c =>
      simp only [schedAct] at hs'
      split at hs'
      · rename_i hn
        split at hs' <;> cases hs'
        exact .interrupt hn trivial
      · cases hs'
  | intr c chan =>
      simp only [schedAct] at hs'
      split at hs' <;> cases hs'
      exact .interrupt (by assumption) trivial

theorem initproc_act {a : SchedAct m n} (hs' : schedAct s a = some s') :
    s'.initproc = s.initproc := by
  have hacq : ∀ {c : Fin m} {lk : Lock n} {k : Sys m n → Sys m n},
      (∀ x, (k x).initproc = x.initproc) → s.acquire c lk k = some s' →
      s'.initproc = s.initproc := by
    intro c lk k hk ha
    simp only [Sys.acquire] at ha
    split at ha
    · cases ha
      rfl
    · split at ha <;> cases ha
      exact hk _
  have hrel : ∀ (c : Fin m) (lk : Lock n) {k : Sys m n → Sys m n},
      (∀ x, (k x).initproc = x.initproc) → (s.release c lk k).initproc = s.initproc := by
    intro c lk k hk
    simp only [Sys.release]
    split
    · exact hk _
    · rfl
  cases a with
  | run c ok =>
      simp only [schedAct] at hs'
      split at hs'
      · cases hs'
      · rename_i f rest hst
        generalize code s c ok f = i at hs'
        cases i with
        | acquire lk next =>
            exact hacq (k := fun x => x.setStack (s.thread c) (next ++ rest)) (fun _ => rfl) hs'
        | release lk next =>
            cases hs'
            exact hrel c lk fun _ => rfl
        | sched next =>
            simp only [Sys.exec] at hs'
            split at hs' <;> cases hs' <;> rfl
        | _ =>
            cases hs'
            rfl
  | call c f =>
      simp only [schedAct] at hs'
      split at hs'
      · split at hs'
        · cases hs'
        · split at hs' <;> cases hs' <;> rfl
        · cases hs'
          rfl
      · cases hs'
  | acquire c k =>
      simp only [schedAct] at hs'
      split at hs'
      · exact hacq (fun _ => rfl) hs'
      · cases hs'
  | release c k =>
      simp only [schedAct] at hs'
      split at hs'
      · cases hs'
        exact hrel c _ fun _ => rfl
      · cases hs'
  | timer c =>
      simp only [schedAct] at hs'
      split at hs'
      · split at hs' <;> cases hs'
        rfl
      · cases hs'
  | intr c chan =>
      simp only [schedAct] at hs'
      split at hs' <;> cases hs'
      rfl

/-- A step that is no instruction: it calls a function or is an interrupt, or leaves
the stacks alone. -/
structure Quiet (s s' : Sys m n) : Prop where
  proc : s'.proc = s.proc
  stack : ∀ p, s'.stack (.proc p) = s.stack (.proc p) ∨ ∃ c, (s.cpu c).cur = some p ∧
    ((s.stack (.proc p) = [] ∧ ∃ f, s'.stack (.proc p) = [Call.frame p f]) ∨
      ((s.cpu c).noff = 0 ∧ ∃ g, g.Intr ∧ s'.stack (.proc p) = g :: s.stack (.proc p)))

/-- A step of one CPU leaves the stacks of the processes on the others alone. -/
theorem Acts.elsewhere {a : SchedAct m n} (ha : Acts s a s') (hrun : ∀ c ok, a ≠ .run c ok)
    {p : Fin n} (hp : (s.cpu a.cpu).cur ≠ some p) : s'.stack (.proc p) = s.stack (.proc p) := by
  have hother : ∀ fs, (s.setStack (s.thread a.cpu) fs).stack (.proc p) = s.stack (.proc p) :=
    fun fs => Sys.stack_setStack_of_ne s (fun ht => hp (thread_eq_proc.mp ht.symm)) fs
  cases ha with
  | run => exact absurd rfl (hrun _ _)
  | halt => rfl
  | lock c k => rfl
  | unlock c k => rfl
  | call f => exact hother _
  | interrupt => exact hother _

theorem Acts.quiet {a : SchedAct m n} (ha : Acts s a s') (hrun : ∀ c ok, a ≠ .run c ok) :
    Quiet s s' := by
  have helse := fun p => ha.elsewhere (p := p) hrun
  cases ha with
  | run => exact absurd rfl (hrun _ _)
  | halt => exact ⟨rfl, fun _ => .inl rfl⟩
  | lock c k => exact ⟨rfl, fun _ => .inl rfl⟩
  | unlock c k => exact ⟨rfl, fun _ => .inl rfl⟩
  | @call c p f hcur hnil _ =>
      refine ⟨rfl, fun q => ?_⟩
      by_cases hq : (s.cpu c).cur = some q
      · cases hcur.symm.trans hq
        refine .inr ⟨c, hcur, .inl ⟨?_, f, ?_⟩⟩
        · rw [← thread_eq_proc.mpr hcur]
          exact hnil
        · rw [← thread_eq_proc.mpr hcur, Sys.stack_setStack_self]
      · exact .inl (helse q hq)
  | @interrupt a g hn hg =>
      refine ⟨rfl, fun q => ?_⟩
      by_cases hq : (s.cpu a.cpu).cur = some q
      · refine .inr ⟨a.cpu, hq, .inr ⟨hn, g, hg, ?_⟩⟩
        rw [← thread_eq_proc.mpr hq, Sys.stack_setStack_self]
      · exact .inl (helse q hq)

/-- A sleeping process is not disturbed. -/
theorem SchedInv.abed_quiet (h : SchedInv s) (hab : s.Abed) (hq : Quiet s s') : s'.Abed := by
  obtain ⟨hproc, hstack⟩ := hq
  intro p hp
  rw [hproc] at hp ⊢
  obtain ⟨lk, pc, rest, hst, hpc⟩ := hab p hp
  rcases hstack p with hsame | ⟨c, hcur, ⟨hnil, -⟩ | ⟨hn, -⟩⟩
  · exact ⟨lk, pc, rest, hsame.trans hst, hpc⟩
  · rw [hnil] at hst
    cases hst
  · have htop := h.topHolds_of_noff hn
    rw [stack_of_cur hcur, hst] at htop
    rcases hpc with rfl | rfl <;> cases htop

end Acts

section Holds

variable {lk : Lock n} {x t : Sys m n} {c : Fin m} {p q : Fin n}

/-- A process that stays off the CPU keeps what it holds. -/
theorem Sys.holds_elsewhere (hcurs : ∀ c', c' ≠ c → (t.cpu c').cur = (x.cpu c').cur)
    (hlocks : ∀ c', c' ≠ c → ((lk, c') ∈ t.locks ↔ (lk, c') ∈ x.locks))
    (hswitch : (t.cpu c).cur = some q → (lk, c) ∉ t.locks) (hq : (x.cpu c).cur ≠ some q) :
    t.Holds lk q ↔ x.Holds lk q := by
  constructor
  · rintro ⟨c', hcur, hmem⟩
    by_cases hcc : c' = c
    · subst hcc
      exact absurd hmem (hswitch hcur)
    · exact ⟨c', by rw [← hcurs c' hcc]; exact hcur, (hlocks c' hcc).mp hmem⟩
  · rintro ⟨c', hcur, hmem⟩
    have hcc : c' ≠ c := by
      rintro rfl
      exact hq hcur
    exact ⟨c', by rw [hcurs c' hcc]; exact hcur, (hlocks c' hcc).mpr hmem⟩

/-- The process on the CPU that takes a step holds the lock if the CPU does. -/
theorem SchedInv.holds_here (h : SchedInv x)
    (hcurs : ∀ c', c' ≠ c → (t.cpu c').cur = (x.cpu c').cur) (hp : (x.cpu c).cur = some p) :
    t.Holds lk p ↔ (t.cpu c).cur = some p ∧ (lk, c) ∈ t.locks := by
  constructor
  · rintro ⟨c', hcur, hmem⟩
    by_cases hcc : c' = c
    · subst hcc
      exact ⟨hcur, hmem⟩
    · rw [hcurs c' hcc] at hcur
      exact absurd (h.cpus.uniq _ _ _ (h.claims_of_cur hcur) (h.claims_of_cur hp)) hcc
  · rintro ⟨hcur, hmem⟩
    exact ⟨c, hcur, hmem⟩

end Holds

section Layer

variable {k : Nat} {chan : Chan n} {s s' : Clients m n} {c : Fin m} {p q : Fin n} {t x : Sys m n}
  {r : Role} {b : Bool}

theorem ClientInv.holds_beside (h : ClientInv k chan s) (hb : Beside k s.sys t c)
    (hq : (s.sys.cpu c).cur ≠ some q) : t.Holds (.other k) q ↔ s.sys.Holds (.other k) q := by
  refine Sys.holds_elsewhere hb.curs hb.locks (fun hcur hmem => ?_) hq
  obtain ⟨hnone, hold⟩ := hb.switch q hq hcur
  obtain ⟨p, hp⟩ := h.held c (hold hmem)
  rw [hnone] at hp
  cases hp

theorem ClientInv.holds_self (h : ClientInv k chan s) (hb : Beside k s.sys t c)
    (hp : (s.sys.cpu c).cur = some p) :
    t.Holds (.other k) p ↔ (t.cpu c).cur = some p ∧ (.other k, c) ∈ t.locks :=
  h.base.holds_here hb.curs hp

/-- A step of one CPU: only the process on it changes its stage. -/
theorem ClientInv.of_beside (h : ClientInv k chan s) (hb : SchedInv s'.sys) (hcs : s'.sys.ChanSet)
    (hbe : Beside k s.sys s'.sys c)
    (hrole : ∀ q, (s.sys.cpu c).cur ≠ some q → s'.role q = s.role q)
    (hself : ∀ p, (s.sys.cpu c).cur = some p →
      (∃ b, Stage k chan p (s'.role p) (s'.sys.stack (.proc p)) b ∧
        (b = true ↔ (.other k, c) ∈ s'.sys.locks) ∧ (b = true → (s'.sys.cpu c).cur = some p)) ∧
      (s'.role p ≠ .idle → (s'.sys.proc p).state.Live))
    (hnone : (s.sys.cpu c).cur = none → (.other k, c) ∉ s'.sys.locks) :
    ClientInv k chan s' := by
  refine ⟨hb, hcs, fun q => ?_, fun q hq => ?_, fun c' hc' => ?_⟩
  · by_cases hq : (s.sys.cpu c).cur = some q
    · obtain ⟨⟨b, hst, hiff, hcur⟩, -⟩ := hself q hq
      refine ⟨b, hst, ?_⟩
      rw [h.holds_self hbe hq]
      exact ⟨fun hb => ⟨hcur hb, hiff.mp hb⟩, fun hb => hiff.mpr hb.2⟩
    · obtain ⟨b, hst, hiff⟩ := h.stage q
      rcases hbe.stack q hq with hsame | ⟨hused, hfork⟩
      · exact ⟨b, by rw [hrole q hq, hsame]; exact hst, hiff.trans (h.holds_beside hbe hq).symm⟩
      · -- a process being made is no client
        have hidle : s.role q = .idle := by
          by_contra hne
          have := h.live q hne
          rw [hused] at this
          exact this
        rw [hidle] at hst
        cases hst
        refine ⟨false, ?_, hiff.trans (h.holds_beside hbe hq).symm⟩
        rw [hrole q hq, hidle, hfork]
        exact .idle (by simp [Frame.Foreign])
  · by_cases hc : (s.sys.cpu c).cur = some q
    · exact (hself q hc).2 hq
    · rw [hrole q hc] at hq
      exact hbe.live q hc (h.live q hq)
  · by_cases hcc : c' = c
    · subst hcc
      cases hcur : (s.sys.cpu c').cur with
      | none => exact absurd hc' (hnone hcur)
      | some p =>
          obtain ⟨⟨b, -, hiff, hcur'⟩, -⟩ := hself p hcur
          exact ⟨p, hcur' (hiff.mpr hc')⟩
    · rw [hbe.curs c' hcc]
      exact h.held c' ((hbe.locks c' hcc).mp hc')

/-! ## An instruction of a client -/

section Run

variable {t x : Sys m n} {ok : Bool} {f : Frame n} {rest : List (Frame n)} {i : Instr n}

theorem Effects.locks_elsewhere {u : Thread m n} (hok : x.locks.Ok) (he : Effects x t c u rest i)
    {c' : Fin m} (hcc : c' ≠ c) (lk : Lock n) :
    (lk, c') ∈ t.locks ↔ (lk, c') ∈ x.locks := by
  rw [he.locks]
  cases i with
  | acquire lk' next => simp [Instr.locks, hcc]
  | release lk' next =>
      rw [Instr.locks, hok.mem_release (he.mem lk' next rfl)]
      refine and_iff_right_of_imp fun hm hk => ?_
      subst hk
      exact hcc (hok.holder_eq hm (he.mem lk next rfl))
  | _ => exact Iff.rfl

theorem SchedInv.run_beside (h : SchedInv x) (hst : x.stack (x.thread c) = f :: rest)
    (hd : Does x f i) (he : Effects x t c (x.thread c) rest i) (k : Nat) : Beside k x t c := by
  refine ⟨he.curs, fun c' hcc => he.locks_elsewhere h.locks.one hcc _,
    fun q hq => h.other_stack hst hd he hq, fun q hq hlive => ?_, fun q hq hq' => ?_⟩
  · refine live_step hd he hlive fun status hf => hq ?_
    subst hf
    exact h.cur_of_runsOn hst fun _ ht => ht
  · rcases h.cur_step hst hd he hq' with hcur | ⟨hf, hnone⟩
    · exact absurd hcur hq
    · exact ⟨hnone, (h.other_locks hd he (by rw [hf]; exact id) c).mp⟩

/-- How far a `wakeup` has come: the processes below are not asleep. -/
def WakeupPc.progress : WakeupPc n → Nat
  | .next i => i
  | .test q => q
  | .release q => q + 1

/-- A `wakeup` ends after the last process, or goes on and leaves out itself. -/
theorem wakeupCode_next (x : Sys m n) (me : Option (Fin n)) (chan : Chan n) (pc : WakeupPc n) :
    ((wakeupCode x me chan pc).next = [] ∧ n ≤ pc.progress) ∨
      ∃ pc', (wakeupCode x me chan pc).next = [.wakeup chan pc'] ∧
        ∀ r : Fin n, r < pc'.progress → r < pc.progress ∨ me = some r ∨ pc = .test r := by
  cases pc with
  | next i =>
      simp only [wakeupCode]
      split
      · rename_i hi
        split
        · rename_i hme
          refine .inr ⟨_, rfl, fun r hr => ?_⟩
          rcases Nat.lt_succ_iff_lt_or_eq.mp hr with hlt | heq
          · exact .inl hlt
          · exact .inr (.inl (by rw [hme]; exact congrArg some (Fin.ext heq.symm)))
        · exact .inr ⟨_, rfl, fun r hr => .inl hr⟩
      · rename_i hi
        exact .inl ⟨rfl, Nat.le_of_not_lt hi⟩
  | test q =>
      have hr : ∀ r : Fin n, (r : Nat) < (q : Nat) + 1 →
          (r : Nat) < q ∨ me = some r ∨ (WakeupPc.test q) = .test r := by
        intro r hr
        rcases Nat.lt_succ_iff_lt_or_eq.mp hr with hlt | heq
        · exact .inl hlt
        · exact .inr (.inr (congrArg _ (Fin.ext heq.symm)))
      simp only [wakeupCode]
      split <;> exact .inr ⟨_, rfl, hr⟩
  | release q => exact .inr ⟨_, rfl, fun r hr => .inl hr⟩

theorem wakeupCode_cur (x : Sys m n) (me : Option (Fin n)) (chan : Chan n) (pc : WakeupPc n)
    (y : Option (Fin n)) : (wakeupCode x me chan pc).cur y = y := by
  cases pc with
  | next i =>
      simp only [wakeupCode]
      split
      · split <;> rfl
      · rfl
  | test q =>
      simp only [wakeupCode]
      split <;> rfl
  | release q => rfl

theorem Stage.top {r : Role} {b : Bool} (h : Stage k chan p r (f :: rest) b) (hr : r ≠ .idle) :
    (∃ pc, f = .sleep p chan (.other k) pc) ∨ f.Intr := by
  generalize hfs : f :: rest = st at h
  cases h with
  | idle => exact absurd rfl hr
  | sleep pc =>
      cases hfs
      exact .inl ⟨pc, rfl⟩
  | @intr fs hi =>
      cases fs with
      | nil =>
          cases hfs
          exact .inl ⟨_, rfl⟩
      | cons g fs =>
          cases hfs
          exact .inr (hi f List.mem_cons_self)
  | waking pc =>
      cases hfs
      exact .inr trivial
  | _ => cases hfs

theorem Frame.Intr.not_sleepsWith {lk : Lock n} (h : f.Intr) : ¬ f.SleepsWith lk := by
  cases f with
  | sleep => exact h.elim
  | _ => exact id

/-- The stage of the process that executes an instruction. -/
theorem ClientInv.run_self (h : ClientInv k chan s) (hp : (s.sys.cpu c).cur = some p)
    (hst : s.sys.stack (s.sys.thread c) = f :: rest) (hd : Does s.sys f (code s.sys c ok f))
    (he : Effects s.sys t c (s.sys.thread c) rest (code s.sys c ok f)) :
    ∃ b, Stage k chan p (s.role p) (t.stack (.proc p)) b ∧ (b = true ↔ (.other k, c) ∈ t.locks) ∧
      (b = true → (t.cpu c).cur = some p) := by
  obtain ⟨b, hstage, hb⟩ := h.stage p
  have hself := h.base.self_stack hst hd he
  rw [thread_eq_proc.mpr hp] at hself
  rw [stack_of_cur hp] at hst
  rw [hself]
  rw [hst] at hstage
  have hmem : b = true ↔ (.other k, c) ∈ s.sys.locks := by
    rw [hb]
    refine ⟨fun ⟨c', hc', hm⟩ => ?_, fun hm => ⟨c, hp, hm⟩⟩
    cases h.base.cpus.uniq _ _ _ (h.base.claims_of_cur hc') (h.base.claims_of_cur hp)
    exact hm
  -- a frame that does not touch the lock
  have hsame : ((.other k, c) ∈ t.locks ↔ (.other k, c) ∈ s.sys.locks) →
      (b = true ↔ (.other k, c) ∈ t.locks) := fun hl => hmem.trans hl.symm
  have hno : b = false → (b = true → (t.cpu c).cur = some p) := by
    rintro rfl hx
    cases hx
  have hsleep : ∀ pc, f = .sleep p chan (.other k) pc → rest = [] → b = pc.locked →
      ∃ b, Stage k chan p .loop ((code s.sys c ok f).next ++ rest) b ∧
        (b = true ↔ (.other k, c) ∈ t.locks) ∧ (b = true → (t.cpu c).cur = some p) := by
    rintro pc rfl rfl rfl
    have hlocks := he.locks
    have hcur := he.cur
    rw [hp] at hcur
    cases pc with
    | acquire =>
        refine ⟨true, .sleep .releaseLk, hsame ?_, fun _ => hcur⟩
        simp [hlocks, code, sleepCode, Instr.locks]
    | releaseLk =>
        refine ⟨false, .sleep .setChan, ⟨fun hx => (by cases hx), fun hx => ?_⟩, fun hx => by cases hx⟩
        rw [hlocks] at hx
        exact absurd rfl ((h.base.locks.one.mem_release (he.mem _ _ rfl)).mp hx).1
    | setChan => exact ⟨false, .sleep .setState, hsame (by rw [hlocks]; rfl), hno rfl⟩
    | setState => exact ⟨false, .sleep .sched, hsame (by rw [hlocks]; rfl), hno rfl⟩
    | sched => exact ⟨false, .sleep .clearChan, hsame (by rw [hlocks]; rfl), hno rfl⟩
    | clearChan => exact ⟨false, .sleep .release, hsame (by rw [hlocks]; rfl), hno rfl⟩
    | release =>
        refine ⟨false, .sleep .acquireLk, hsame ?_, hno rfl⟩
        simp [hlocks, code, sleepCode, Instr.locks, List.mem_erase_of_ne]
    | acquireLk =>
        refine ⟨true, .test, ⟨fun _ => ?_, fun _ => rfl⟩, fun _ => hcur⟩
        rw [hlocks]
        exact List.mem_cons_self
  generalize hfs : f :: rest = st at hstage
  generalize s.role p = r at hstage
  cases hstage with
  | idle hf =>
      subst hfs
      have hff := hf f List.mem_cons_self
      refine ⟨false, .idle fun g hg => ?_,
        hsame (h.base.other_locks hd he hff.not_sleepsWith c), hno rfl⟩
      rcases List.mem_append.mp hg with hg | hg
      · exact hff.leads (hd.leads g hg)
      · exact hf g (List.mem_cons_of_mem _ hg)
  | sleep pc =>
      cases hfs
      exact hsleep pc rfl rfl rfl
  | @intr fs hi =>
      cases fs with
      | nil =>
          cases hfs
          exact hsleep .acquireLk rfl rfl rfl
      | cons g fs =>
          rw [List.cons_append] at hfs
          obtain ⟨rfl, rfl⟩ := List.cons.inj hfs
          have hfi : f.Intr := hi f List.mem_cons_self
          refine ⟨false, ?_, hsame (h.base.other_locks hd he hfi.not_sleepsWith c), hno rfl⟩
          rw [← List.append_assoc]
          refine .intr fun g hg => ?_
          rcases List.mem_append.mp hg with hg | hg
          · exact hfi.leads (hd.leads g hg)
          · exact hi g (List.mem_cons_of_mem _ hg)
  | waking pc =>
      cases hfs
      have hcur := he.cur
      rw [hp] at hcur
      have hiff := hsame (h.base.other_locks hd he id c)
      have hcur' := hcur.trans (wakeupCode_cur ..)
      rw [List.append_nil]
      rcases wakeupCode_next s.sys (s.sys.cpu c).proc chan pc with ⟨hnext, -⟩ | ⟨pc', hnext, -⟩
      · exact ⟨true, hnext ▸ Stage.woken, hiff, fun _ => hcur'⟩
      · exact ⟨true, hnext ▸ Stage.waking pc', hiff, fun _ => hcur'⟩
  | _ => cases hfs

theorem ClientInv.run (h : ClientInv k chan s) {sys : Sys m n}
    (hs' : schedAct s.sys (.run c ok) = some sys) : ClientInv k chan { s with sys := sys } := by
  have hb' : SchedInv sys := h.base.act hs'
  rcases h.base.run_effects hs' with ⟨e, rfl⟩ | ⟨f, rest, hst, hd, he⟩
  · exact ⟨hb', h.chanSet, h.stage, h.live, h.held⟩
  · have hbe := h.base.run_beside hst hd he k
    refine h.of_beside hb' (h.base.chanSet_step h.chanSet hst hd he) hbe (fun _ _ => rfl)
      (fun p hp => ⟨h.run_self hp hst hd he, fun hr => ?_⟩) fun hnone hm => ?_
    · refine live_step hd he (h.live p hr) fun status hf => ?_
      subst hf
      obtain ⟨b, hstage, -⟩ := h.stage p
      rw [← stack_of_cur hp, hst] at hstage
      rcases hstage.top hr with ⟨pc, hf⟩ | hf
      · cases hf
      · exact hf
    · have hns : ¬ f.SleepsWith (.other k) := by
        have hruns := h.base.frames.runsOn _ f (mem_top hst)
        rw [thread_eq_scheduler.mpr ⟨hnone, rfl⟩] at hruns
        cases f with
        | sleep p chan lk pc => cases hruns.1
        | _ => exact id
      obtain ⟨p, hp⟩ := h.held c ((h.base.other_locks hd he hns c).mp hm)
      rw [hnone] at hp
      cases hp

end Run

/-! ## The other steps -/

theorem Beside.refl (x : Sys m n) (c : Fin m) : Beside k x x c :=
  ⟨fun _ _ => rfl, fun _ _ => Iff.rfl, fun _ _ => .inl rfl, fun _ _ => id,
    fun _ hne he => absurd he hne⟩

theorem Beside.setStack (x : Sys m n) (c : Fin m) (fs : List (Frame n)) :
    Beside k x (x.setStack (x.thread c) fs) c :=
  ⟨fun _ _ => rfl, fun _ _ => Iff.rfl,
    fun _ hq => .inl (Sys.stack_setStack_of_ne x (fun ht => hq (thread_eq_proc.mp ht.symm)) fs),
    fun _ _ => id, fun _ hne he => absurd he hne⟩

theorem Beside.lock (x : Sys m n) (c : Fin m) (lk : Lock n) : Beside k x (x.lock c lk) c := by
  refine ⟨fun c' _ => cur_lock x c c' lk, fun c' hcc => ?_, fun _ _ => .inl rfl, fun _ _ => id,
    fun q hne he => absurd ((cur_lock x c c lk).symm.trans he) hne⟩
  simp [Sys.lock, hcc]

theorem Beside.unlock (x : Sys m n) (c : Fin m) (lk : Lock n) : Beside k x (x.unlock c lk) c := by
  refine ⟨fun c' _ => cur_unlock x c c' lk, fun c' hcc => ?_, fun _ _ => .inl rfl, fun _ _ => id,
    fun q hne he => absurd ((cur_unlock x c c lk).symm.trans he) hne⟩
  exact List.mem_erase_of_ne (by simp [hcc])

theorem ChanSet.setStack (h : x.ChanSet) (hx : SchedInv x) {fs : List (Frame n)}
    (hfs : ∀ p chan lk rest, fs ≠ .sleep p chan lk .setState :: rest) :
    (x.setStack (x.thread c) fs).ChanSet := by
  intro c' p chan lk rest hc' hst
  change (x.cpu c').cur = some p at hc'
  by_cases hcc : c' = c
  · subst hcc
    rw [thread_eq_proc.mpr hc', Sys.stack_setStack_self] at hst
    exact absurd hst (hfs p chan lk rest)
  · have hne : Thread.proc p ≠ x.thread c := fun ht => by
      rw [← thread_eq_proc.mpr hc'] at ht
      exact hcc (hx.thread_inj ht)
    rw [Sys.stack_setStack_of_ne _ hne] at hst
    exact h c' p chan lk rest hc' hst

theorem ClientInv.mem_iff (h : ClientInv k chan s) (hp : (s.sys.cpu c).cur = some p) :
    s.sys.Holds (.other k) p ↔ (.other k, c) ∈ s.sys.locks := by
  rw [h.holds_self (.refl s.sys c) hp]
  exact and_iff_right hp

/-- The process on a CPU moves to another stage. -/
theorem ClientInv.move (h : ClientInv k chan s) (hp : (s.sys.cpu c).cur = some p) {sys : Sys m n}
    (hb : SchedInv sys) (hcs : sys.ChanSet) (hbe : Beside k s.sys sys c)
    (hcur : (sys.cpu c).cur = some p) (hstage : Stage k chan p r (sys.stack (.proc p)) b)
    (hiff : b = true ↔ (.other k, c) ∈ sys.locks) (hlive : r ≠ .idle → (sys.proc p).state.Live)
    (cond : Bool) :
    ClientInv k chan ⟨sys, cond, Function.update s.role p r⟩ := by
  refine h.of_beside (c := c) hb hcs hbe (fun q hq => ?_) (fun q hq => ?_) fun hn => ?_
  · refine Function.update_of_ne ?_ _ _
    rintro rfl
    exact hq hp
  · cases hp.symm.trans hq
    refine ⟨⟨b, ?_, hiff, fun _ => hcur⟩, fun hne => hlive ?_⟩
    · show Stage k chan p (Function.update s.role p r p) (sys.stack (.proc p)) b
      rw [Function.update_self]
      exact hstage
    · change Function.update s.role p r p ≠ .idle at hne
      rwa [Function.update_self] at hne
  · rw [hp] at hn
    cases hn

/-- The process on a CPU is running when its stack is empty. -/
theorem SchedInv.live_of_nil (h : SchedInv x) (hp : (x.cpu c).cur = some p)
    (hst : x.stack (.proc p) = []) : (x.proc p).state.Live := by
  rw [(h.cpus.onProc c p hp).2, hst]
  trivial

theorem ClientInv.stage_of (h : ClientInv k chan s) (hp : (s.sys.cpu c).cur = some p) :
    ∃ b, Stage k chan p (s.role p) (s.sys.stack (.proc p)) b ∧
      (b = true ↔ (.other k, c) ∈ s.sys.locks) := by
  obtain ⟨b, hst, hiff⟩ := h.stage p
  exact ⟨b, hst, hiff.trans (h.mem_iff hp)⟩

/-- A client makes a call. -/
theorem ClientInv.call (h : ClientInv k chan s) (hp : (s.sys.cpu c).cur = some p)
    (hnil : s.sys.stack (.proc p) = []) {f : Call n} {sys : Sys m n}
    (hs' : schedAct s.sys (.call c f) = some sys) (hstage : Stage k chan p r [Call.frame p f] b)
    (hsame : Stage k chan p r [] b) (hiff : b = true ↔ (.other k, c) ∈ s.sys.locks) (cond : Bool) :
    ClientInv k chan ⟨sys, cond, Function.update s.role p r⟩ := by
  have hb := h.base.act hs'
  have hlive := h.base.live_of_nil hp hnil
  have hhalt : ∀ e, ClientInv k chan ⟨s.sys.halt e, cond, Function.update s.role p r⟩ := fun e =>
    h.move hp (h.base.halt e) h.chanSet
      ⟨fun _ _ => rfl, fun _ _ => Iff.rfl, fun _ _ => .inl rfl, fun _ _ => id,
        fun _ hne he => absurd he hne⟩ hp (by rw [← hnil] at hsame; exact hsame) hiff
      (fun _ => hlive) cond
  have hpush : SchedInv (s.sys.setStack (s.sys.thread c) [Call.frame p f]) →
      ClientInv k chan ⟨s.sys.setStack (s.sys.thread c) [Call.frame p f], cond,
        Function.update s.role p r⟩ := by
    intro hb
    refine h.move hp hb (ChanSet.setStack h.chanSet h.base ?_) (.setStack ..) hp ?_ hiff
      (fun _ => hlive) cond
    · intro q ch lk rest he
      cases f <;> cases he
    · rw [← thread_eq_proc.mpr hp, Sys.stack_setStack_self]
      exact hstage
  rcases (call_effects (h.base.proc_of_cur hp) hs').2 with ⟨e, -, -, rfl⟩ | rfl
  · exact hhalt e
  · exact hpush hb

/-- A client acquires the lock. -/
theorem ClientInv.acquire (h : ClientInv k chan s) (hp : (s.sys.cpu c).cur = some p)
    (hnil : s.sys.stack (.proc p) = []) (hnot : (.other k, c) ∉ s.sys.locks) {sys : Sys m n}
    (hs' : schedAct s.sys (.acquire c k) = some sys) (hstage : Stage k chan p r [] true)
    (cond : Bool) : ClientInv k chan ⟨sys, cond, Function.update s.role p r⟩ := by
  have hb := h.base.act hs'
  simp only [schedAct, Sys.acquire, if_neg hnot] at hs'
  split at hs'
  · split at hs'
    · cases hs'
      refine h.move hp hb (fun c' q ch lk rest hc' => ?_) (.lock ..) ((cur_lock ..).trans hp)
        (by rw [← hnil] at hstage; exact hstage) ?_ (fun _ => h.base.live_of_nil hp hnil) cond
      · exact h.chanSet c' q ch lk rest ((cur_lock ..).symm.trans hc')
      · simp [Sys.lock]
    · cases hs'
  · cases hs'

/-- A client releases the lock. -/
theorem ClientInv.release (h : ClientInv k chan s) (hp : (s.sys.cpu c).cur = some p)
    (hnil : s.sys.stack (.proc p) = []) (hmem : (.other k, c) ∈ s.sys.locks) {sys : Sys m n}
    (hs' : schedAct s.sys (.release c k) = some sys) (cond : Bool) :
    ClientInv k chan ⟨sys, cond, Function.update s.role p .idle⟩ := by
  have hb := h.base.act hs'
  simp only [schedAct, Sys.release, if_pos hmem] at hs'
  split at hs'
  · cases hs'
    refine h.move (b := false) hp hb (fun c' q ch lk rest hc' => ?_) (.unlock ..)
      ((cur_unlock ..).trans hp) (.idle ?_) ?_ (by simp) cond
    · exact h.chanSet c' q ch lk rest ((cur_unlock ..).symm.trans hc')
    · intro g hg
      change g ∈ s.sys.stack (.proc p) at hg
      rw [hnil] at hg
      cases hg
    · refine ⟨fun hx => (by cases hx), fun hx => ?_⟩
      exact absurd rfl ((h.base.locks.one.mem_release hmem).mp hx).1
  · cases hs'

/-- A process outside of the protocol acquires or releases another lock. -/
theorem ClientInv.other (h : ClientInv k chan s) (hp : (s.sys.cpu c).cur = some p)
    (hr : s.role p = .idle) {sys : Sys m n} (hb : SchedInv sys) (hbe : Beside k s.sys sys c)
    (hcur : ∀ c', (sys.cpu c').cur = (s.sys.cpu c').cur) (hst : sys.stack = s.sys.stack)
    (hproc : sys.proc = s.sys.proc)
    (hl : (.other k, c) ∈ sys.locks ↔ (.other k, c) ∈ s.sys.locks) :
    ClientInv k chan { s with sys := sys } := by
  obtain ⟨b, hstage, hiff⟩ := h.stage_of hp
  have hmove := h.move (r := .idle) (b := b) hp hb (fun c' q ch lk rest hc' hst' => ?_) hbe
    ((hcur c).trans hp) ?_ (hiff.trans hl.symm) (by simp) s.cond
  · rwa [Function.update_eq_self_iff.mpr hr.symm] at hmove
  · rw [hproc]
    rw [hcur] at hc'
    rw [hst] at hst'
    exact h.chanSet c' q ch lk rest hc' hst'
  · rw [hst, ← hr]
    exact hstage

theorem Stage.interrupt {st : List (Frame n)} {g : Frame n} (h : Stage k chan p r st false)
    (htop : topHolds st = none) (hg : g.Intr) :
    Stage k chan p r (g :: st) false := by
  generalize hb : false = b at h
  cases h with
  | idle hf =>
      refine .idle fun f hmem => ?_
      rcases List.mem_cons.mp hmem with rfl | hmem
      · cases f with
        | sleep => exact hg.elim
        | wait => exact hg.elim
        | _ => trivial
      · exact hf f hmem
  | sleep pc =>
      cases pc with
      | acquireLk =>
          show Stage k chan p .loop ([g] ++ [_]) false
          refine .intr fun f hf => ?_
          cases List.mem_singleton.mp hf
          exact hg
      | acquire => cases hb
      | _ => cases htop
  | @intr fs hfs =>
      rw [← List.cons_append]
      refine .intr fun f hf => ?_
      rcases List.mem_cons.mp hf with rfl | hf
      · exact hg
      · exact hfs f hf
  | _ => cases hb

/-- An interrupt comes while the CPU holds no lock. -/
theorem ClientInv.interrupt (h : ClientInv k chan s) (hn : (s.sys.cpu c).noff = 0) {g : Frame n}
    (hg : g.Intr)
    (hb : SchedInv (s.sys.setStack (s.sys.thread c) (g :: s.sys.stack (s.sys.thread c)))) :
    ClientInv k chan
      { s with sys := s.sys.setStack (s.sys.thread c) (g :: s.sys.stack (s.sys.thread c)) } := by
  have hnot : (.other k, c) ∉ s.sys.locks := by
    rw [h.base.locks.noff] at hn
    exact Spin.Held.notMem_of_count_zero hn _
  refine h.of_beside (c := c) hb (ChanSet.setStack h.chanSet h.base ?_) (.setStack ..) (fun _ _ => rfl)
    (fun p hp => ⟨?_, h.live p⟩) fun _ => hnot
  · intro p ch lk rest he
    cases he
    exact hg
  · obtain ⟨b, hstage, hiff⟩ := h.stage_of hp
    have hbf : b = false := by
      rw [← Bool.not_eq_true, hiff]
      exact hnot
    subst hbf
    have htop := h.base.topHolds_of_noff hn
    refine ⟨false, ?_, hiff, fun hx => by cases hx⟩
    rw [stack_of_cur hp] at htop
    rw [thread_eq_proc.mpr hp, Sys.stack_setStack_self]
    exact hstage.interrupt htop hg

end Layer

end Xv6
