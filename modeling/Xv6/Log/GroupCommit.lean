import Xv6.Log.Recovery

/-!
# Concurrent operations on the log

Any number of processes run `begin_op(); (modify a buffer; log_write)*; end_op()`.
Every section under `log.lock` is one step, every block write of `commit()` is
its own step, and steps of different processes interleave freely.

A buffer is sleep-locked from `bread` to `brelse`, and its holder may modify it
only in between, so at most one process modifies a block at a time.  A modified
buffer is released after `log_write`.  `log_write` pins the buffer of a newly
logged block, and only buffers that are neither pinned nor locked may be
recycled (`evict`).  The number of buffers is not bounded here: running out of
them is a panic of `bget`, after which nothing happens.

The fields `opno`, `hist`, `ended`, `synced` and `txn` are history: they record
what the processes did, and no step reads them.
-/

namespace Xv6

/-! ## States -/

/-- Where a process is. -/
inductive Pc where
  /-- Between operations. -/
  | idle
  /-- In `begin_op`, at the top of its loop. -/
  | beginOp
  /-- In `begin_op`, in `sleep(&log, &log.lock)`. -/
  | sleeping
  /-- Between `begin_op` and `end_op`. -/
  | inOp
  /-- In `end_op` with `do_commit = 1`, about to call `commit()`. -/
  | doCommit
  /-- In `commit()`. -/
  | commit (pc : CommitPc)
deriving DecidableEq

/-- The calls of `panic` in `kernel/log.c` that operations could reach. -/
inductive LogPanic where
  /-- `panic("too big a transaction")`. -/
  | tooBig
  /-- `panic("log_write outside of trans")`. -/
  | outsideTrans
  /-- `panic("log.committing")`. -/
  | committing
deriving DecidableEq

/-- An operation: the process that runs it, and which of its operations it is. -/
abbrev OpId (n : Nat) := Fin n × Nat

/-- One call of `log_write`: the operation, the block and the data it logged. -/
structure LoggedWrite (n : Nat) where
  op : OpId n
  block : Nat
  data : Block

/-- The log and the processes that use it. -/
structure LogSys (n : Nat) where
  log : Log
  pc : Fin n → Pc
  /-- The sleep-locked buffers, with their holders. -/
  locks : List (Nat × Fin n)
  /-- Buffers modified since they were last logged. -/
  dirty : Nat → Bool
  panic : Option LogPanic
  /-- How many operations a process has begun. -/
  opno : Fin n → Nat
  /-- The calls of `log_write`, oldest first. -/
  hist : List (LoggedWrite n)
  /-- The operations that have called `end_op`. -/
  ended : List (OpId n)
  /-- The operations whose `end_op` has returned after performing the commit. -/
  synced : List (OpId n)
  /-- The blocks passed to `log_write` since there was last no operation. -/
  txn : List Nat

/-- What a process, or the buffer cache, may do next. -/
inductive Act (n : Nat) where
  /-- Call `begin_op`. -/
  | callBegin (p : Fin n)
  /-- One round of the loop of `begin_op`. -/
  | beginOp (p : Fin n)
  /-- `bread` a home block. -/
  | bread (p : Fin n) (b : Nat)
  /-- Set the data of a locked buffer. -/
  | modify (p : Fin n) (b : Nat) (v : Block)
  | logWrite (p : Fin n) (b : Nat)
  | brelse (p : Fin n) (b : Nat)
  /-- The first section of `end_op` under `log.lock`. -/
  | endOp (p : Fin n)
  /-- A step of `commit()`. -/
  | commit (p : Fin n)
  /-- The second section of `end_op` under `log.lock`. -/
  | endCommit (p : Fin n)
  /-- The cache recycles the buffer of a block. -/
  | evict (b : Nat)

namespace LogSys

variable {n : Nat}

/-- The operation a process is running, or ran last. -/
def op (s : LogSys n) (p : Fin n) : OpId n := (p, s.opno p)

/-- `wakeup(&log)`. -/
def wakeup (s : LogSys n) : LogSys n :=
  { s with pc := fun q => if s.pc q = .sleeping then .beginOp else s.pc q }

/-- Move a process to another point of its program. -/
def goto (s : LogSys n) (p : Fin n) (pc : Pc) : LogSys n :=
  { s with pc := Function.update s.pc p pc }

/-- The test of `begin_op`: this op might exhaust log space. -/
def noSpace (s : LogSys n) : Prop :=
  (s.log.lh.length : Int) + (s.log.outstanding + 1) * MAXOPBLOCKS > LOGSIZE

instance (s : LogSys n) : Decidable s.noSpace := by unfold noSpace; infer_instance

/-- The test of `log_write`: too big a transaction.  `log.size - 1` is compared
as an `int`. -/
def full (g : Geom) (s : LogSys n) : Prop :=
  LOGSIZE ≤ s.log.lh.length ∨ (g.size : Int) - 1 ≤ s.log.lh.length

instance (g : Geom) (s : LogSys n) : Decidable (s.full g) := by unfold full; infer_instance

/-- `begin_op` admits the operation. -/
def enter (s : LogSys n) (p : Fin n) : LogSys n :=
  { s.goto p .inOp with
    log := { s.log with outstanding := s.log.outstanding + 1 }
    opno := Function.update s.opno p (s.opno p + 1) }

/-- `log_write` records the block: absorbed if it is already logged, else added
to the header and pinned. -/
def record (s : LogSys n) (p : Fin n) (b : Nat) : LogSys n :=
  { s with
    log := if b ∈ s.log.lh then s.log
      else { s.log with lh := s.log.lh ++ [b]
                        pin := Function.update s.log.pin b (s.log.pin b + 1) }
    dirty := Function.update s.dirty b false
    hist := s.hist ++ [⟨s.op p, b, s.log.bread b⟩]
    txn := s.txn ++ [b] }

/-- `log.outstanding -= 1`, with the end of the operation on record. -/
def leave (s : LogSys n) (p : Fin n) : LogSys n :=
  { s with
    log := { s.log with outstanding := s.log.outstanding - 1 }
    ended := s.ended ++ [s.op p]
    txn := if ∃ q, q ≠ p ∧ s.pc q = .inOp then s.txn else [] }

/-- Overwrite the buffer of a block. -/
def setBuf (s : LogSys n) (b : Nat) (v : Option Block) : LogSys n :=
  { s with log := { s.log with cache := Function.update s.log.cache b v } }

end LogSys

open LogSys

/-! ## Steps -/

/-- The next state, or `none` if the step is not possible. -/
def logAct (g : Geom) {n : Nat} (s : LogSys n) : Act n → Option (LogSys n)
  | .callBegin p => if s.pc p = .idle then some (s.goto p .beginOp) else none
  | .beginOp p =>
      if s.pc p = .beginOp then
        if s.log.committing then some (s.goto p .sleeping)
        else if s.noSpace then some (s.goto p .sleeping)
        else some (s.enter p)
      else none
  | .bread p b =>
      if s.pc p = .inOp ∧ g.Home b ∧ b < 2 ^ 32 ∧ b ∉ s.locks.map Prod.fst then
        some { s.setBuf b (some (s.log.bread b)) with locks := (b, p) :: s.locks }
      else none
  | .modify p b v =>
      if (b, p) ∈ s.locks then
        some { s.setBuf b (some v) with dirty := Function.update s.dirty b true }
      else none
  | .logWrite p b =>
      if (b, p) ∈ s.locks then
        if s.full g then some { s with panic := some .tooBig }
        else if s.log.outstanding < 1 then some { s with panic := some .outsideTrans }
        else some (s.record p b)
      else none
  | .brelse p b =>
      if (b, p) ∈ s.locks ∧ s.dirty b = false then
        some { s with locks := s.locks.erase (b, p) }
      else none
  | .endOp p =>
      if s.pc p = .inOp ∧ p ∉ s.locks.map Prod.snd then
        let s' := s.leave p
        if s'.log.committing then some { s' with panic := some .committing }
        else if s'.log.outstanding = 0 then
          some { s'.goto p .doCommit with log := { s'.log with committing := true } }
        else some (s'.wakeup.goto p .idle)
      else none
  | .commit p =>
      match s.pc p with
      | .doCommit => some (s.goto p (.commit (commitEntry s.log)))
      | .commit .done => none
      | .commit c =>
          some { s.goto p (.commit (commitStep g (s.log, c)).2) with
                 log := (commitStep g (s.log, c)).1 }
      | _ => none
  | .endCommit p =>
      if s.pc p = .commit .done then
        some { s.wakeup.goto p .idle with
               log := { s.log with committing := false }
               synced := s.synced ++ [s.op p] }
      else none
  | .evict b => if s.log.pin b = 0 ∧ b ∉ s.locks.map Prod.fst then some (s.setBuf b none) else none

/-- After a panic no step is possible. -/
def logStep (g : Geom) {n : Nat} (s : LogSys n) (a : Act n) : Option (LogSys n) :=
  if s.panic = none then logAct g s a else none

/-- The state after `initlog` on disk `d`, no process in an operation. -/
def LogSys.init (n : Nat) (d : Disk) : LogSys n where
  log := Log.boot d
  pc := fun _ => .idle
  locks := []
  dirty := fun _ => false
  panic := none
  opno := fun _ => 0
  hist := []
  ended := []
  synced := []
  txn := []

/-- The kinds of steps, each with its guard and its effect. -/
inductive LogStep (g : Geom) {n : Nat} (s : LogSys n) : Act n → LogSys n → Prop where
  | callBegin {p} : s.pc p = .idle → LogStep g s (.callBegin p) (s.goto p .beginOp)
  | sleep {p} : s.pc p = .beginOp → LogStep g s (.beginOp p) (s.goto p .sleeping)
  | enter {p} : s.pc p = .beginOp → s.log.committing = false → ¬ s.noSpace →
      LogStep g s (.beginOp p) (s.enter p)
  | bread {p b} : s.pc p = .inOp → g.Home b → b < 2 ^ 32 → b ∉ s.locks.map Prod.fst →
      LogStep g s (.bread p b)
        { s.setBuf b (some (s.log.bread b)) with locks := (b, p) :: s.locks }
  | modify {p b v} : (b, p) ∈ s.locks →
      LogStep g s (.modify p b v)
        { s.setBuf b (some v) with dirty := Function.update s.dirty b true }
  | tooBig {p b} : (b, p) ∈ s.locks → s.full g →
      LogStep g s (.logWrite p b) { s with panic := some .tooBig }
  | outsideTrans {p b} : (b, p) ∈ s.locks → ¬ s.full g → s.log.outstanding < 1 →
      LogStep g s (.logWrite p b) { s with panic := some .outsideTrans }
  | record {p b} : (b, p) ∈ s.locks → ¬ s.full g → 1 ≤ s.log.outstanding →
      LogStep g s (.logWrite p b) (s.record p b)
  | brelse {p b} : (b, p) ∈ s.locks → s.dirty b = false →
      LogStep g s (.brelse p b) { s with locks := s.locks.erase (b, p) }
  | committing {p} : s.pc p = .inOp → s.log.committing = true →
      LogStep g s (.endOp p) { s.leave p with panic := some .committing }
  | endLast {p} : s.pc p = .inOp → p ∉ s.locks.map Prod.snd → s.log.committing = false →
      s.log.outstanding = 1 →
      LogStep g s (.endOp p) { (s.leave p).goto p .doCommit with
        log := { (s.leave p).log with committing := true } }
  | endOther {p} : s.pc p = .inOp → p ∉ s.locks.map Prod.snd → s.log.committing = false →
      s.log.outstanding ≠ 1 →
      LogStep g s (.endOp p) ((s.leave p).wakeup.goto p .idle)
  | doCommit {p} : s.pc p = .doCommit →
      LogStep g s (.commit p) (s.goto p (.commit (commitEntry s.log)))
  | commit {p c} : s.pc p = .commit c →
      LogStep g s (.commit p) { s.goto p (.commit (commitStep g (s.log, c)).2) with
        log := (commitStep g (s.log, c)).1 }
  | endCommit {p} : s.pc p = .commit .done →
      LogStep g s (.endCommit p) { s.wakeup.goto p .idle with
        log := { s.log with committing := false }
        synced := s.synced ++ [s.op p] }
  | evict {b} : s.log.pin b = 0 → b ∉ s.locks.map Prod.fst →
      LogStep g s (.evict b) (s.setBuf b none)

/-- Every step is of one of the kinds, and there is none after a panic. -/
theorem logStep_cases {g : Geom} {n : Nat} {s s' : LogSys n} {a : Act n}
    (h : logStep g s a = some s') : s.panic = none ∧ LogStep g s a s' := by
  unfold logStep at h
  split at h <;> [skip; cases h]
  rename_i hp
  refine ⟨hp, ?_⟩
  cases a with
  | callBegin p =>
      simp only [logAct] at h
      split at h <;> cases h
      rename_i hpc
      exact .callBegin hpc
  | beginOp p =>
      simp only [logAct] at h
      split at h <;> [skip; cases h]
      rename_i hpc
      split at h
      · cases h
        exact .sleep hpc
      · split at h <;> cases h
        · exact .sleep hpc
        · rename_i hc hs
          exact .enter hpc (by simpa using hc) hs
  | bread p b =>
      simp only [logAct] at h
      split at h <;> cases h
      rename_i hg
      exact .bread hg.1 hg.2.1 hg.2.2.1 hg.2.2.2
  | modify p b v =>
      simp only [logAct] at h
      split at h <;> cases h
      rename_i hg
      exact .modify hg
  | logWrite p b =>
      simp only [logAct] at h
      split at h <;> [skip; cases h]
      rename_i hg
      split at h
      · cases h
        rename_i hf
        exact .tooBig hg hf
      · rename_i hf
        split at h <;> cases h
        · rename_i ho
          exact .outsideTrans hg hf ho
        · rename_i ho
          exact .record hg hf (by omega)
  | brelse p b =>
      simp only [logAct] at h
      split at h <;> cases h
      rename_i hg
      exact .brelse hg.1 hg.2
  | endOp p =>
      simp only [logAct] at h
      split at h <;> [skip; cases h]
      rename_i hg
      split at h
      · cases h
        rename_i hc
        exact .committing hg.1 hc
      · rename_i hc
        have hc' : s.log.committing = false := by simpa [leave] using hc
        split at h <;> cases h
        · rename_i ho
          exact .endLast hg.1 hg.2 hc' (by simp only [leave] at ho; omega)
        · rename_i ho
          exact .endOther hg.1 hg.2 hc' (by simp only [leave] at ho; omega)
  | commit p =>
      simp only [logAct] at h
      split at h
      · cases h
        rename_i hpc
        exact .doCommit hpc
      · cases h
      · cases h
        rename_i hpc
        exact .commit hpc
      · cases h
  | endCommit p =>
      simp only [logAct] at h
      split at h <;> cases h
      rename_i hpc
      exact .endCommit hpc
  | evict b =>
      simp only [logAct] at h
      split at h <;> cases h
      rename_i hg
      exact .evict hg.1 hg.2

end Xv6
