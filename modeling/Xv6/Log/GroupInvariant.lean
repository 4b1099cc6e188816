import Xv6.Log.GroupCommit
import Xv6.Lib.Run

/-!
# The log under concurrent operations: the invariant

The invariant has four parts.  Who is where: `log.outstanding` counts the
processes in an operation, and while `log.committing` is set exactly one process
is in the commit and none is in an operation.  What the buffers hold: the
initial contents with every logged write applied, unless the buffer is locked
and modified since.  Which operations the calls of `log_write` belong to.  And
the disk: the calls split into those of committed transactions, which the home
blocks hold, and those of the current one, whose blocks are in the header.
During the commit of the current transaction the disk is as `CommitInv`
describes it.

This module keeps track of the processes and of their operations.  The buffers
and the disk follow in `Xv6.Log.GroupDisk`.
-/

namespace Xv6

open LogSys

variable {n : Nat} {g : Geom} {p q : Fin n} {x : Pc} {s s' : LogSys n} {l : Log} {a : Act n}

/-! ## Program points -/

/-- The process is committing. -/
def Pc.InCommit : Pc → Prop
  | .doCommit | .commit _ => True
  | .idle | .beginOp | .sleeping | .inOp => False

/-- The processes in an operation. -/
def running (pc : Fin n → Pc) : Finset (Fin n) := Finset.univ.filter fun p => pc p = .inOp

@[simp] theorem mem_running {pc : Fin n → Pc} : p ∈ running pc ↔ pc p = .inOp := by
  simp [running]

theorem running_update_enter (pc : Fin n → Pc) (p : Fin n) :
    running (Function.update pc p .inOp) = insert p (running pc) := by
  ext q
  by_cases hq : q = p <;> simp [hq]

theorem running_update_of_ne (pc : Fin n → Pc) (p : Fin n) (hx : x ≠ .inOp) :
    running (Function.update pc p x) = (running pc).erase p := by
  ext q
  by_cases hq : q = p <;> simp [hq, hx]

/-- The number of processes in an operation. -/
def active (pc : Fin n → Pc) : Nat := (running pc).card

theorem active_update_enter {pc : Fin n → Pc} (h : pc p ≠ .inOp) :
    active (Function.update pc p .inOp) = active pc + 1 := by
  rw [active, running_update_enter, Finset.card_insert_of_notMem (by simpa using h), active]

theorem active_update_of_ne {pc : Fin n → Pc} (h : pc p ≠ .inOp) (hx : x ≠ .inOp) :
    active (Function.update pc p x) = active pc := by
  rw [active, running_update_of_ne pc p hx, Finset.erase_eq_of_notMem (by simpa using h), active]

theorem active_update_leave {pc : Fin n → Pc} (h : pc p = .inOp) (hx : x ≠ .inOp) :
    active (Function.update pc p x) + 1 = active pc := by
  rw [active, running_update_of_ne pc p hx, Finset.card_erase_add_one (by simpa using h), active]

theorem active_eq_zero {pc : Fin n → Pc} : active pc = 0 ↔ ∀ p, pc p ≠ .inOp := by
  simp [active, Finset.card_eq_zero, Finset.eq_empty_iff_forall_notMem]

theorem goto_pc (s : LogSys n) (p : Fin n) (x : Pc) :
    (s.goto p x).pc = Function.update s.pc p x := rfl

theorem wakeup_pc_eq (hx : x ≠ .sleeping) (hx' : x ≠ .beginOp) :
    s.wakeup.pc q = x ↔ s.pc q = x := by
  by_cases h : s.pc q = .sleeping
  · simp only [wakeup, h, if_true]
    constructor
    · intro h'
      exact absurd h'.symm hx'
    · intro h'
      exact absurd h'.symm hx
  · simp [wakeup, h]

theorem wakeup_inCommit : (s.wakeup.pc q).InCommit ↔ (s.pc q).InCommit := by
  by_cases h : s.pc q = .sleeping
  · simp [wakeup, h, Pc.InCommit]
  · simp [wakeup, h]

theorem running_wakeup (s : LogSys n) : running s.wakeup.pc = running s.pc := by
  ext q
  rw [mem_running, mem_running]
  exact wakeup_pc_eq (by simp) (by simp)

theorem active_wakeup (s : LogSys n) : active s.wakeup.pc = active s.pc := by
  rw [active, running_wakeup, active]

/-! ## Who is where -/

/-- Operations and commits exclude each other. -/
structure Exclusion (s : LogSys n) : Prop where
  /-- `log.outstanding` counts the operations. -/
  count : s.log.outstanding = active s.pc
  /-- `log.committing` is set while a process is in the commit. -/
  comm : s.log.committing = true ↔ ∃ p, (s.pc p).InCommit
  /-- One process at a time commits. -/
  uniq : ∀ p q, (s.pc p).InCommit → (s.pc q).InCommit → p = q
  /-- No operation runs during a commit. -/
  quiet : s.log.committing = true → ∀ p, s.pc p ≠ .inOp
  /-- Buffers are held only inside operations. -/
  locks : ∀ e ∈ s.locks, s.pc e.2 = .inOp
  panic : s.panic ≠ some .committing

theorem Exclusion.init (n : Nat) (d : Disk) : Exclusion (LogSys.init n d) where
  count := by simp [LogSys.init, Log.boot, active, running]
  comm := by simp [LogSys.init, Log.boot, Pc.InCommit]
  uniq := by simp [LogSys.init, Pc.InCommit]
  quiet := by simp [LogSys.init, Log.boot]
  locks := by simp [LogSys.init]
  panic := by simp [LogSys.init]

/-- Steps that move no process. -/
theorem Exclusion.stay (h : Exclusion s) (hpc : s'.pc = s.pc)
    (ho : s'.log.outstanding = s.log.outstanding) (hc : s'.log.committing = s.log.committing)
    (hl : ∀ e ∈ s'.locks, s.pc e.2 = .inOp) (hp : s'.panic ≠ some .committing) :
    Exclusion s' where
  count := by rw [ho, hpc]; exact h.count
  comm := by rw [hc, hpc]; exact h.comm
  uniq := by rw [hpc]; exact h.uniq
  quiet := by rw [hc, hpc]; exact h.quiet
  locks := by rw [hpc]; exact hl
  panic := hp

/-- A process outside the operation and the commit stays outside of both. -/
theorem Exclusion.move (h : Exclusion s) (hp : ¬ (s.pc p).InCommit) (hpi : s.pc p ≠ .inOp)
    (hx : ¬ x.InCommit) (hxi : x ≠ .inOp) :
    Exclusion (s.goto p x) := by
  have hne : ∀ q, (Function.update s.pc p x q).InCommit → q ≠ p ∧ (s.pc q).InCommit := by
    intro q hq
    by_cases hqp : q = p
    · subst hqp
      rw [Function.update_self] at hq
      exact absurd hq hx
    · rw [Function.update_of_ne hqp] at hq
      exact ⟨hqp, hq⟩
  refine ⟨?_, ?_, fun q r hq hr => ?_, fun hc q hq => ?_, fun e he => ?_, h.panic⟩
  · rw [goto_pc, active_update_of_ne hpi hxi]
    exact h.count
  · rw [goto_pc]
    refine h.comm.trans ⟨?_, fun ⟨q, hq⟩ => ⟨q, (hne q hq).2⟩⟩
    rintro ⟨q, hq⟩
    have hqp : q ≠ p := by rintro rfl; exact hp hq
    exact ⟨q, by rw [Function.update_of_ne hqp]; exact hq⟩
  · exact h.uniq q r (hne q hq).2 (hne r hr).2
  · rw [goto_pc] at hq
    by_cases hqp : q = p
    · subst hqp
      rw [Function.update_self] at hq
      exact hxi hq
    · rw [Function.update_of_ne hqp] at hq
      exact h.quiet hc q hq
  · have hep : e.2 ≠ p := by
      intro hep
      exact hpi (hep ▸ h.locks e he)
    rw [goto_pc, Function.update_of_ne hep]
    exact h.locks e he

/-- The committing process goes on with its commit. -/
theorem Exclusion.commit (h : Exclusion s) (hp : (s.pc p).InCommit) (hx : x.InCommit)
    (ho : l.outstanding = s.log.outstanding) (hc : l.committing = s.log.committing) :
    Exclusion { s.goto p x with log := l } := by
  have hpi : s.pc p ≠ .inOp := by intro he; rw [he] at hp; exact hp
  have hxi : x ≠ .inOp := by intro he; rw [he] at hx; exact hx
  have hcomm : s.log.committing = true := h.comm.mpr ⟨p, hp⟩
  have honly : ∀ q, (Function.update s.pc p x q).InCommit → q = p := by
    intro q hq
    by_contra hqp
    rw [Function.update_of_ne hqp] at hq
    exact hqp (h.uniq q p hq hp)
  refine ⟨?_, ?_, fun q r hq hr => (honly q hq).trans (honly r hr).symm, fun _ q hq => ?_,
    fun e he => ?_, h.panic⟩
  · show l.outstanding = active (Function.update s.pc p x)
    rw [ho, active_update_of_ne hpi hxi]
    exact h.count
  · show l.committing = true ↔ ∃ q, (Function.update s.pc p x q).InCommit
    rw [hc]
    exact ⟨fun _ => ⟨p, by rw [Function.update_self]; exact hx⟩, fun _ => hcomm⟩
  · by_cases hqp : q = p
    · subst hqp
      rw [goto_pc, Function.update_self] at hq
      exact hxi hq
    · rw [goto_pc, Function.update_of_ne hqp] at hq
      exact h.quiet hcomm q hq
  · exact absurd (h.locks e he) (h.quiet hcomm e.2)

theorem commitStep_counters (g : Geom) (c : Log × CommitPc) :
    (commitStep g c).1.outstanding = c.1.outstanding ∧
      (commitStep g c).1.committing = c.1.committing := by
  obtain ⟨l, pc⟩ := c
  cases pc with
  | writeLog tail => rw [commitStep]; split <;> exact ⟨rfl, rfl⟩
  | writeHead => exact ⟨rfl, rfl⟩
  | installTrans tail => rw [commitStep]; split <;> exact ⟨rfl, rfl⟩
  | clearHead => exact ⟨rfl, rfl⟩
  | done => exact ⟨rfl, rfl⟩

theorem Exclusion.enter (h : Exclusion s) (hp : s.pc p = .beginOp) (hc : s.log.committing = false) :
    Exclusion (s.enter p) := by
  have hnone : ∀ q, ¬ (s.pc q).InCommit := by
    intro q hq
    rw [h.comm.mpr ⟨q, hq⟩] at hc
    cases hc
  have hnone' : ∀ q, ¬ (Function.update s.pc p .inOp q).InCommit := by
    intro q hq
    by_cases hqp : q = p
    · subst hqp
      rw [Function.update_self] at hq
      exact hq
    · rw [Function.update_of_ne hqp] at hq
      exact hnone q hq
  refine ⟨?_, ?_, fun q r hq _ => absurd hq (hnone' q), fun ht => ?_, fun e he => ?_, h.panic⟩
  · show s.log.outstanding + 1 = active (Function.update s.pc p .inOp)
    rw [active_update_enter (by rw [hp]; simp), h.count]
    simp
  · show s.log.committing = true ↔ ∃ q, (Function.update s.pc p .inOp q).InCommit
    rw [hc]
    exact ⟨fun hf => absurd hf (by simp), fun ⟨q, hq⟩ => absurd hq (hnone' q)⟩
  · have hf : s.log.committing = true := ht
    rw [hc] at hf
    cases hf
  · show Function.update s.pc p .inOp e.2 = .inOp
    by_cases hep : e.2 = p
    · rw [hep, Function.update_self]
    · rw [Function.update_of_ne hep]
      exact h.locks e he

theorem Exclusion.endLast (h : Exclusion s) (hp : s.pc p = .inOp) (hl : p ∉ s.locks.map Prod.snd)
    (hc : s.log.committing = false) (ho : s.log.outstanding = 1) :
    Exclusion { (s.leave p).goto p .doCommit with
      log := { (s.leave p).log with committing := true } } := by
  have hleave := active_update_leave (x := .doCommit) hp (by simp)
  have hzero : active (Function.update s.pc p .doCommit) = 0 := by
    have := h.count
    omega
  have honly : ∀ q, (Function.update s.pc p .doCommit q).InCommit → q = p := by
    intro q hq
    by_contra hqp
    rw [Function.update_of_ne hqp] at hq
    rw [h.comm.mpr ⟨q, hq⟩] at hc
    cases hc
  refine ⟨?_, ?_, fun q r hq hr => (honly q hq).trans (honly r hr).symm,
    fun _ q => active_eq_zero.mp hzero q, fun e he => ?_, h.panic⟩
  · show s.log.outstanding - 1 = active (Function.update s.pc p .doCommit)
    rw [hzero, ho]
    rfl
  · exact ⟨fun _ => ⟨p, by rw [goto_pc, Function.update_self]; trivial⟩, fun _ => rfl⟩
  · have hep : e.2 ≠ p := by
      intro hep
      exact hl (hep ▸ List.mem_map_of_mem he)
    show Function.update s.pc p .doCommit e.2 = .inOp
    rw [Function.update_of_ne hep]
    exact h.locks e he

theorem Exclusion.endOther (h : Exclusion s) (hp : s.pc p = .inOp) (hl : p ∉ s.locks.map Prod.snd)
    (hc : s.log.committing = false) :
    Exclusion ((s.leave p).wakeup.goto p .idle) := by
  have hact : active ((s.leave p).wakeup.goto p .idle).pc + 1 = active s.pc := by
    have hpw : (s.leave p).wakeup.pc p = .inOp := (wakeup_pc_eq (by simp) (by simp)).mpr hp
    rw [goto_pc, active_update_leave hpw (by simp), active_wakeup]
    rfl
  have hnone : ∀ q, ¬ (((s.leave p).wakeup.goto p .idle).pc q).InCommit := by
    intro q hq
    by_cases hqp : q = p
    · subst hqp
      rw [goto_pc, Function.update_self] at hq
      exact hq
    · rw [goto_pc, Function.update_of_ne hqp, wakeup_inCommit] at hq
      rw [h.comm.mpr ⟨q, hq⟩] at hc
      cases hc
  refine ⟨?_, ?_, fun q r hq _ => absurd hq (hnone q), fun ht => ?_, fun e he => ?_, h.panic⟩
  · show s.log.outstanding - 1 = _
    have := h.count
    omega
  · show s.log.committing = true ↔ _
    rw [hc]
    exact ⟨fun hf => absurd hf (by simp), fun ⟨q, hq⟩ => absurd hq (hnone q)⟩
  · have hf : s.log.committing = true := ht
    rw [hc] at hf
    cases hf
  · have hep : e.2 ≠ p := by
      intro hep
      exact hl (hep ▸ List.mem_map_of_mem he)
    rw [goto_pc, Function.update_of_ne hep]
    exact (wakeup_pc_eq (by simp) (by simp)).mpr (h.locks e he)

theorem Exclusion.endCommit (h : Exclusion s) (hp : s.pc p = .commit .done) :
    Exclusion { s.wakeup.goto p .idle with
      log := { s.log with committing := false }
      synced := s.synced ++ [s.op p] } := by
  have hpc : (s.pc p).InCommit := by rw [hp]; trivial
  have hcomm : s.log.committing = true := h.comm.mpr ⟨p, hpc⟩
  have hnone : ∀ q, ¬ ((s.wakeup.goto p .idle).pc q).InCommit := by
    intro q hq
    by_cases hqp : q = p
    · subst hqp
      rw [goto_pc, Function.update_self] at hq
      exact hq
    · rw [goto_pc, Function.update_of_ne hqp, wakeup_inCommit] at hq
      exact hqp (h.uniq q p hq hpc)
  refine ⟨?_, ?_, fun q r hq _ => absurd hq (hnone q), fun ht => absurd ht (by simp),
    fun e he => ?_, h.panic⟩
  · show s.log.outstanding = active (s.wakeup.goto p .idle).pc
    have hpw : s.wakeup.pc p ≠ .inOp := by
      rw [Ne, wakeup_pc_eq (by simp) (by simp), hp]
      simp
    rw [goto_pc, active_update_of_ne hpw (by simp), active_wakeup]
    exact h.count
  · exact ⟨fun hf => absurd hf (by simp), fun ⟨q, hq⟩ => absurd hq (hnone q)⟩
  · exact absurd (h.locks e he) (h.quiet hcomm e.2)

theorem Exclusion.step (h : Exclusion s) (hst : LogStep g s a s') : Exclusion s' := by
  cases hst with
  | callBegin hp => exact h.move (by rw [hp]; simp [Pc.InCommit]) (by rw [hp]; simp) (by simp [Pc.InCommit]) (by simp)
  | sleep hp => exact h.move (by rw [hp]; simp [Pc.InCommit]) (by rw [hp]; simp) (by simp [Pc.InCommit]) (by simp)
  | enter hp hc _ => exact h.enter hp hc
  | bread hp _ _ _ =>
      refine h.stay rfl rfl rfl (fun e he => ?_) h.panic
      rcases List.mem_cons.mp he with rfl | he
      · exact hp
      · exact h.locks e he
  | modify _ => exact h.stay rfl rfl rfl h.locks h.panic
  | tooBig _ _ => exact h.stay rfl rfl rfl h.locks (by simp)
  | outsideTrans _ _ _ => exact h.stay rfl rfl rfl h.locks (by simp)
  | @record p b _ _ _ =>
      refine h.stay rfl ?_ ?_ h.locks h.panic
      · simp only [record]; split <;> rfl
      · simp only [record]; split <;> rfl
  | brelse _ _ =>
      exact h.stay rfl rfl rfl (fun e he => h.locks e (List.mem_of_mem_erase he)) h.panic
  | committing hp hc => exact absurd hp (h.quiet hc _)
  | endLast hp hl hc ho => exact h.endLast hp hl hc ho
  | endOther hp hl hc _ => exact h.endOther hp hl hc
  | doCommit hp => exact h.commit (by rw [hp]; trivial) trivial rfl rfl
  | @commit p c hp =>
      have hcnt := commitStep_counters g (s.log, c)
      exact h.commit (by rw [hp]; trivial) trivial hcnt.1 hcnt.2
  | endCommit hp => exact h.endCommit hp
  | evict _ _ => exact h.stay rfl rfl rfl h.locks h.panic

/-! ## What the buffers hold -/

/-- Apply logged writes to the contents of a disk, oldest first. -/
def replay (d : Disk) (h : List (LoggedWrite n)) : Disk :=
  h.foldl (fun d w => Function.update d w.block w.data) d

theorem replay_append (d : Disk) (h h' : List (LoggedWrite n)) :
    replay d (h ++ h') = replay (replay d h) h' := by
  simp [replay]

theorem replay_snoc (d : Disk) (h : List (LoggedWrite n)) (w : LoggedWrite n) :
    replay d (h ++ [w]) = Function.update (replay d h) w.block w.data := by
  simp [replay]

/-- A block that no write names keeps its contents. -/
theorem replay_of_forall_ne {b : Nat} : ∀ (h : List (LoggedWrite n)) (d : Disk),
    (∀ w ∈ h, w.block ≠ b) → replay d h b = d b
  | [], _, _ => rfl
  | w :: h, d, hne => by
      have ih := replay_of_forall_ne h (Function.update d w.block w.data)
        fun w' hw' => hne w' (List.mem_cons_of_mem _ hw')
      have hw : b ≠ w.block := (hne w List.mem_cons_self).symm
      rw [Function.update_of_ne hw] at ih
      exact ih

/-- Locked buffers, modified buffers and the contents of all others. -/
structure Buffers (g : Geom) (d0 : Disk) (s : LogSys n) : Prop where
  /-- Operations lock home blocks. -/
  home : ∀ e ∈ s.locks, g.Home e.1 ∧ e.1 < 2 ^ 32
  /-- A buffer has one holder. -/
  nodup : (s.locks.map Prod.fst).Nodup
  /-- Only locked buffers are modified and not logged. -/
  dirty : ∀ b, s.dirty b = true → b ∈ s.locks.map Prod.fst
  /-- A buffer that is not modified holds the last data logged for its block. -/
  view : ∀ b, g.Home b → s.dirty b = false → s.log.bread b = replay d0 s.hist b

theorem bread_setBuf (s : LogSys n) (b c : Nat) (v : Option Block) :
    (s.setBuf b v).log.bread c = if c = b then v.getD (s.log.disk b) else s.log.bread c := by
  by_cases h : c = b
  · subst h
    simp [setBuf, Log.bread]
  · simp [setBuf, Log.bread, h]

theorem bread_record (s : LogSys n) (p : Fin n) (b c : Nat) :
    (s.record p b).log.bread c = s.log.bread c := by
  simp only [record]
  split <;> rfl

theorem disk_record (s : LogSys n) (p : Fin n) (b : Nat) :
    (s.record p b).log.disk = s.log.disk := by
  simp only [record]
  split <;> rfl

/-! ## Which operation a write belongs to -/

/-- Operations are identified by their process and a number that grows. -/
structure Ops (s : LogSys n) : Prop where
  /-- A write belongs to an operation that has ended or is running. -/
  hist : ∀ w ∈ s.hist, w.op ∈ s.ended ∨ (s.pc w.op.1 = .inOp ∧ w.op = s.op w.op.1)
  /-- An operation that has ended is not the running one. -/
  fresh : ∀ o ∈ s.ended, o.2 ≤ s.opno o.1 ∧ (s.pc o.1 = .inOp → o.2 ≠ s.opno o.1)
  /-- The committing process has ended its operation. -/
  committer : ∀ p, (s.pc p).InCommit → s.op p ∈ s.ended

/-- The running operation of a process has not ended. -/
theorem Ops.running (h : Ops s) (hp : s.pc p = .inOp) :
    s.op p ∉ s.ended := fun hm => (h.fresh _ hm).2 hp rfl

/-! ## The disk -/

/-- The blocks a transaction pins while its commit is at a point. -/
def CommitPc.pinned (t : List Nat) : CommitPc → List Nat
  | .writeLog _ | .writeHead => t
  | .installTrans tail => t.drop tail
  | .clearHead | .done => []

/-- Exactly the listed blocks are pinned, once. -/
def Log.Pins (l : Log) (t : List Nat) : Prop := ∀ b, l.pin b = if b ∈ t then 1 else 0

/-- The blocks of a list of writes. -/
def Names (h : List (LoggedWrite n)) (t : List Nat) : Prop :=
  ∀ b, b ∈ t ↔ ∃ w ∈ h, w.block = b

/-- No commit is writing: the home blocks hold the committed writes `fin`, and
the in-memory header names the blocks of the current ones `cur`. -/
structure OpenTxn (g : Geom) (d0 : Disk) (l : Log) (fin cur : List (LoggedWrite n)) : Prop where
  header : g.header l.disk = []
  home : ∀ b, g.Home b → l.disk b = replay d0 fin b
  txn : Txn g l.lh
  names : Names cur l.lh
  pins : l.Pins l.lh

/-- A commit of the current writes `cur` is at `c`. -/
def Committing (g : Geom) (d0 : Disk) (l : Log) (c : CommitPc)
    (fin cur : List (LoggedWrite n)) : Prop :=
  ∃ t, Txn g t ∧ Names cur t ∧ l.Pins (c.pinned t) ∧
    CommitInv g t (replay d0 fin) (replay d0 (fin ++ cur)) (l, c)

/-- The calls of `log_write` split into those of committed transactions, whose
operations are `D`, and those of the current one. -/
structure Split (s : LogSys n) (D : List (OpId n)) (fin cur : List (LoggedWrite n)) : Prop where
  eq : s.hist = fin ++ cur
  fin : ∀ w ∈ fin, w.op ∈ D
  cur : ∀ w ∈ cur, w.op ∉ D
  ended : ∀ o ∈ D, o ∈ s.ended
  synced : ∀ o ∈ s.synced, o ∈ D

/-- The disk and the header, at whatever point the committing process is. -/
def OnDisk (g : Geom) (d0 : Disk) (s : LogSys n) : Prop :=
  ∃ D fin cur, Split s D fin cur ∧
    ((∀ p c, s.pc p ≠ .commit c) → OpenTxn g d0 s.log fin cur) ∧
    (∀ p c, s.pc p = .commit c → Committing g d0 s.log c fin cur)

/-- The invariant of the log under concurrent operations. -/
structure LogInv (g : Geom) (d0 : Disk) (s : LogSys n) : Prop where
  excl : Exclusion s
  bufs : Buffers g d0 s
  ops : Ops s
  disk : OnDisk g d0 s

/-! ## The invariant holds initially -/

theorem LogInv.init {d0 : Disk} (hsz : 1 ≤ g.size) (hhd : g.header d0 = []) :
    LogInv g d0 (LogSys.init n d0) where
  excl := .init n d0
  bufs :=
    { home := by simp [LogSys.init]
      nodup := by simp [LogSys.init]
      dirty := by simp [LogSys.init]
      view := fun _ _ _ => rfl }
  ops :=
    { hist := by simp [LogSys.init]
      fresh := by simp [LogSys.init]
      committer := fun p hp => absurd hp (by simp [LogSys.init, Pc.InCommit]) }
  disk := by
    refine ⟨[], [], [], ⟨rfl, by simp, by simp, by simp, by simp [LogSys.init]⟩, fun _ => ?_,
      fun p c hp => absurd hp (by simp [LogSys.init])⟩
    exact ⟨hhd, fun _ _ => rfl, .nil hsz, by simp [Names, LogSys.init, Log.boot],
      by simp [Log.Pins, LogSys.init, Log.boot]⟩

/-! ## Steps keep track of the operations -/

/-- Steps that begin and end no operation and log nothing. -/
theorem Ops.frame (h : Ops s) (hh : s'.hist = s.hist) (he : s'.ended = s.ended)
    (ho : s'.opno = s.opno) (hin : ∀ q, s'.pc q = .inOp ↔ s.pc q = .inOp)
    (hcm : ∀ q, (s'.pc q).InCommit → (s.pc q).InCommit) : Ops s' := by
  have hop : ∀ q, s'.op q = s.op q := fun q => by rw [op, op, ho]
  refine ⟨fun w hw => ?_, fun o hmem => ?_, fun p hp => ?_⟩
  · rw [hh] at hw
    rw [he, hin, hop]
    exact h.hist w hw
  · rw [he] at hmem
    rw [ho, hin]
    exact h.fresh o hmem
  · rw [he, hop]
    exact h.committer p (hcm p hp)

/-- A process that is not in an operation moves to another such point. -/
theorem update_inOp {pc : Fin n → Pc} (hp : pc p ≠ .inOp) (hx : x ≠ .inOp) (q : Fin n) :
    Function.update pc p x q = .inOp ↔ pc q = .inOp := by
  by_cases hqp : q = p
  · subst hqp
    simp [hp, hx]
  · rw [Function.update_of_ne hqp]

theorem update_inCommit {pc : Fin n → Pc} (hx : x.InCommit → (pc p).InCommit) (q : Fin n)
    (h : (Function.update pc p x q).InCommit) : (pc q).InCommit := by
  by_cases hqp : q = p
  · subst hqp
    rw [Function.update_self] at h
    exact hx h
  · rwa [Function.update_of_ne hqp] at h

theorem Ops.move (h : Ops s) (hp : s.pc p ≠ .inOp) (hx : x ≠ .inOp)
    (hc : x.InCommit → (s.pc p).InCommit) :
    Ops { s.goto p x with log := l } :=
  h.frame rfl rfl rfl (update_inOp hp hx) (update_inCommit hc)

theorem Ops.enter (h : Ops s) (hp : s.pc p = .beginOp) : Ops (s.enter p) := by
  have hopno : ∀ q, q ≠ p → (s.enter p).opno q = s.opno q := fun q hq =>
    Function.update_of_ne hq _ _
  have hpc : ∀ q, q ≠ p → (s.enter p).pc q = s.pc q := fun q hq => Function.update_of_ne hq _ _
  refine ⟨fun w hw => ?_, fun o ho => ?_, fun q hq => ?_⟩
  · rcases h.hist w hw with hend | ⟨hin, hop⟩
    · exact Or.inl hend
    · have hne : w.op.1 ≠ p := by
        intro he
        rw [he, hp] at hin
        cases hin
      refine Or.inr ⟨(hpc _ hne).trans hin, ?_⟩
      rw [op, hopno _ hne]
      exact hop
  · obtain ⟨hle, hfresh⟩ := h.fresh o ho
    by_cases hop : o.1 = p
    · have hnew : (s.enter p).opno o.1 = s.opno o.1 + 1 := by
        rw [hop]
        exact Function.update_self _ _ _
      rw [hnew]
      exact ⟨by omega, fun _ => by omega⟩
    · rw [hopno _ hop, hpc _ hop]
      exact ⟨hle, hfresh⟩
  · have hqp : q ≠ p := by
      rintro rfl
      rw [LogSys.enter, goto_pc, Function.update_self] at hq
      exact hq
    rw [hpc q hqp] at hq
    show (q, (s.enter p).opno q) ∈ s.ended
    rw [hopno q hqp]
    exact h.committer q hq

theorem Ops.record (h : Ops s) (hp : s.pc p = .inOp) (b : Nat) : Ops (s.record p b) := by
  refine ⟨fun w hw => ?_, h.fresh, h.committer⟩
  rcases List.mem_append.mp hw with hw | hw
  · exact h.hist w hw
  · rw [List.mem_singleton] at hw
    subst hw
    exact Or.inr ⟨hp, rfl⟩

/-- The end of an operation, wherever its process goes from there. -/
theorem Ops.leave (h : Ops s) (hp : s.pc p = .inOp) (hh : s'.hist = s.hist)
    (he : s'.ended = s.ended ++ [s.op p]) (ho : s'.opno = s.opno) (hpp : s'.pc p ≠ .inOp)
    (hin : ∀ q, q ≠ p → (s'.pc q = .inOp ↔ s.pc q = .inOp))
    (hcm : ∀ q, q ≠ p → (s'.pc q).InCommit → (s.pc q).InCommit) : Ops s' := by
  have hop : ∀ q, s'.op q = s.op q := fun q => by rw [op, op, ho]
  refine ⟨fun w hw => ?_, fun o hmem => ?_, fun q hq => ?_⟩
  · rw [hh] at hw
    rw [he]
    rcases h.hist w hw with hend | ⟨hin', hop'⟩
    · exact Or.inl (List.mem_append_left _ hend)
    · by_cases hwp : w.op.1 = p
      · rw [hwp] at hop'
        exact Or.inl (List.mem_append_right _ (by rw [hop']; simp))
      · exact Or.inr ⟨(hin _ hwp).mpr hin', by rw [hop]; exact hop'⟩
  · rw [he] at hmem
    rw [ho]
    rcases List.mem_append.mp hmem with hmem | hmem
    · refine ⟨(h.fresh o hmem).1, fun hpc => ?_⟩
      have hop' : o.1 ≠ p := by
        intro heq
        rw [heq] at hpc
        exact hpp hpc
      exact (h.fresh o hmem).2 ((hin _ hop').mp hpc)
    · rw [List.mem_singleton] at hmem
      subst hmem
      exact ⟨Nat.le_refl _, fun hpc => absurd hpc hpp⟩
  · rw [he, hop]
    by_cases hqp : q = p
    · subst hqp
      simp
    · exact List.mem_append_left _ (h.committer q (hcm q hqp hq))

theorem Ops.step (h : Ops s) (hx : Exclusion s) (hst : LogStep g s a s') : Ops s' := by
  cases hst with
  | callBegin hp => exact h.move (by rw [hp]; simp) (by simp) fun hf => hf.elim
  | sleep hp => exact h.move (by rw [hp]; simp) (by simp) fun hf => hf.elim
  | enter hp _ _ => exact h.enter hp
  | bread _ _ _ _ => exact h.frame rfl rfl rfl (fun _ => Iff.rfl) fun _ hq => hq
  | modify _ => exact h.frame rfl rfl rfl (fun _ => Iff.rfl) fun _ hq => hq
  | tooBig _ _ => exact h.frame rfl rfl rfl (fun _ => Iff.rfl) fun _ hq => hq
  | outsideTrans _ _ _ => exact h.frame rfl rfl rfl (fun _ => Iff.rfl) fun _ hq => hq
  | @record p b hl _ _ => exact h.record (hx.locks _ hl) b
  | brelse _ _ => exact h.frame rfl rfl rfl (fun _ => Iff.rfl) fun _ hq => hq
  | committing hp hc => exact absurd hp (hx.quiet hc _)
  | @endLast p hp _ _ _ =>
      refine h.leave hp rfl rfl rfl ?_ (fun q hq => ?_) fun q hq hc => ?_
      · rw [goto_pc, Function.update_self]
        simp
      · rw [goto_pc, Function.update_of_ne hq]
        rfl
      · rwa [goto_pc, Function.update_of_ne hq] at hc
  | @endOther p hp _ _ _ =>
      refine h.leave hp rfl rfl rfl ?_ (fun q hq => ?_) fun q hq hc => ?_
      · rw [goto_pc, Function.update_self]
        simp
      · rw [goto_pc, Function.update_of_ne hq, wakeup_pc_eq (by simp) (by simp)]
        rfl
      · rwa [goto_pc, Function.update_of_ne hq, wakeup_inCommit] at hc
  | doCommit hp => exact h.move (by rw [hp]; simp) (by simp) fun _ => by rw [hp]; trivial
  | commit hp => exact h.move (by rw [hp]; simp) (by simp) fun _ => by rw [hp]; trivial
  | @endCommit p hp =>
      have hpi : s.wakeup.pc p ≠ .inOp := by
        rw [Ne, wakeup_pc_eq (by simp) (by simp), hp]
        simp
      refine h.frame rfl rfl rfl (fun q => ?_) fun q hq => ?_
      · exact (update_inOp hpi (by simp) q).trans (wakeup_pc_eq (by simp) (by simp))
      · exact wakeup_inCommit.mp (update_inCommit (x := .idle) (fun hf => hf.elim) q hq)
  | evict _ _ => exact h.frame rfl rfl rfl (fun _ => Iff.rfl) fun _ hq => hq

end Xv6
