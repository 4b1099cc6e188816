import Xv6.Log.GroupDisk

/-!
# Log space

`begin_op` admits an operation if `log.lh.n` and `MAXOPBLOCKS` blocks for every
operation fit into `LOGSIZE` blocks.  `log_write` panics if `log.lh.n` has
reached `log.size - 1`, since the header takes one of the `log.size` blocks, and
`mkfs` makes a log of `LOGSIZE` blocks.  So `begin_op` reserves one block more
than there is.  Three operations of `MAXOPBLOCKS` blocks each are admitted
together, and the last block does not fit (`threeOps_tooBig`).

The operations that share a transaction run into the panic exactly when they
have logged `LOGSIZE - 1` distinct blocks (`no_tooBig_iff`).  Operations of at
most `MAXOPBLOCKS - 1` distinct blocks never do (`no_tooBig_of_opLimit`).
-/

namespace Xv6

open LogSys

variable {n b : Nat} {g : Geom} {s s' : LogSys n} {p : Fin n} {d0 : Disk} {a : Act n}

/-! ## The blocks of the open transaction -/

/-- Outside the commit the header names the blocks logged since there was last
no operation. -/
structure Shared (s : LogSys n) : Prop where
  opened : s.log.committing = false → ∀ b, b ∈ s.log.lh ↔ b ∈ s.txn
  idle : (∀ p, s.pc p ≠ .inOp) → s.txn = []

theorem Shared.init (n : Nat) (d : Disk) : Shared (LogSys.init n d) :=
  ⟨fun _ _ => Iff.rfl, fun _ => rfl⟩

/-- Steps that do not log and begin or end no operation or commit. -/
theorem Shared.frame (h : Shared s) (hc : s'.log.committing = s.log.committing)
    (hl : s.log.committing = false → s'.log.lh = s.log.lh) (ht : s'.txn = s.txn)
    (hpc : ∀ q, s'.pc q = .inOp ↔ s.pc q = .inOp) : Shared s' := by
  refine ⟨fun hc' b => ?_, fun hq => ?_⟩
  · rw [hc] at hc'
    rw [hl hc', ht]
    exact h.opened hc' b
  · rw [ht]
    exact h.idle fun p hp => hq p ((hpc p).mpr hp)

/-- `log.outstanding` is 1 exactly if no other process is in an operation. -/
theorem Exclusion.outstanding_eq_one (h : Exclusion s) (hp : s.pc p = .inOp) :
    s.log.outstanding = 1 ↔ ¬ ∃ q, q ≠ p ∧ s.pc q = .inOp := by
  have hcount : s.log.outstanding = 1 ↔ active s.pc = 1 := by rw [h.count]; omega
  rw [hcount, active, Finset.card_eq_one]
  constructor
  · rintro ⟨x, hx⟩ ⟨q, hqp, hq⟩
    rw [← mem_running, hx, Finset.mem_singleton] at hp hq
    exact hqp (hq.trans hp.symm)
  · intro hno
    refine ⟨p, Finset.eq_singleton_iff_unique_mem.mpr ⟨mem_running.mpr hp, fun q hq => ?_⟩⟩
    by_contra hqp
    exact hno ⟨q, hqp, mem_running.mp hq⟩

theorem mem_lh_record (s : LogSys n) (p : Fin n) (b c : Nat) :
    c ∈ (s.record p b).log.lh ↔ c ∈ s.log.lh ∨ c = b := by
  simp only [record]
  split
  · rename_i hb
    constructor
    · exact Or.inl
    · rintro (h | rfl)
      · exact h
      · exact hb
  · simp

/-- A `log_write` is made outside the commit. -/
theorem LogInv.not_committing (h : LogInv g d0 s) (hl : (b, p) ∈ s.locks) :
    s.log.committing = false := by
  by_contra hc
  exact h.excl.quiet (by simpa using hc) _ (h.excl.locks _ hl)

theorem Shared.step (h : Shared s) (hinv : LogInv g d0 s) (hst : LogStep g s a s') : Shared s' := by
  cases hst with
  | callBegin hp => exact h.frame rfl (fun _ => rfl) rfl (update_inOp (by rw [hp]; simp) (by simp))
  | sleep hp => exact h.frame rfl (fun _ => rfl) rfl (update_inOp (by rw [hp]; simp) (by simp))
  | @enter p _ _ _ =>
      refine ⟨h.opened, fun hq => absurd ?_ (hq p)⟩
      exact Function.update_self ..
  | bread _ _ _ _ => exact h.frame rfl (fun _ => rfl) rfl fun _ => Iff.rfl
  | modify _ => exact h.frame rfl (fun _ => rfl) rfl fun _ => Iff.rfl
  | tooBig _ _ => exact h.frame rfl (fun _ => rfl) rfl fun _ => Iff.rfl
  | outsideTrans _ _ _ => exact h.frame rfl (fun _ => rfl) rfl fun _ => Iff.rfl
  | @record p b hl _ _ =>
      have hopen := hinv.not_committing hl
      refine ⟨fun _ c => ?_, fun hq => absurd (hinv.excl.locks _ hl) (hq p)⟩
      rw [mem_lh_record, h.opened hopen c]
      simp [LogSys.record]
  | brelse _ _ => exact h.frame rfl (fun _ => rfl) rfl fun _ => Iff.rfl
  | committing hp hc => exact absurd hp (hinv.excl.quiet hc _)
  | @endLast p hp _ _ ho =>
      refine ⟨fun hc => (by cases hc), fun _ => ?_⟩
      exact if_neg ((hinv.excl.outstanding_eq_one hp).mp ho)
  | @endOther p hp _ hc ho =>
      have hex : ∃ q, q ≠ p ∧ s.pc q = .inOp := by
        by_contra hno
        exact ho ((hinv.excl.outstanding_eq_one hp).mpr hno)
      have htxn : ((s.leave p).wakeup.goto p .idle).txn = s.txn := if_pos hex
      obtain ⟨q, hqp, hq⟩ := hex
      refine ⟨fun _ b => ?_, fun hno => absurd ?_ (hno q)⟩
      · rw [htxn]
        exact h.opened hc b
      · rw [goto_pc, Function.update_of_ne hqp, wakeup_pc_eq (by simp) (by simp)]
        exact hq
  | doCommit hp => exact h.frame rfl (fun _ => rfl) rfl (update_inOp (by rw [hp]; simp) (by simp))
  | @commit p c hp =>
      have hc : s.log.committing = true := hinv.excl.comm.mpr ⟨p, by rw [hp]; trivial⟩
      exact h.frame (commitStep_counters g (s.log, c)).2 (fun hf => by rw [hc] at hf; cases hf) rfl
        (update_inOp (by rw [hp]; simp) (by simp))
  | @endCommit p hp =>
      have hc : s.log.committing = true := hinv.excl.comm.mpr ⟨p, by rw [hp]; trivial⟩
      have htxn : s.txn = [] := h.idle (hinv.excl.quiet hc)
      obtain ⟨D, fin, cur, -, -, hcom⟩ := hinv.disk
      obtain ⟨t, -, -, -, -, hlh, -⟩ := hcom p .done hp
      refine ⟨fun _ b => ?_, fun _ => htxn⟩
      show b ∈ s.log.lh ↔ b ∈ s.txn
      rw [hlh, htxn]
  | evict _ _ => exact h.frame rfl (fun _ => rfl) rfl fun _ => Iff.rfl

/-- The header outside the commit is a transaction. -/
theorem LogInv.txn (h : LogInv g d0 s) (hc : s.log.committing = false) : Txn g s.log.lh := by
  obtain ⟨D, fin, cur, -, hopen, -⟩ := h.disk
  refine (hopen fun p c hp => ?_).txn
  rw [h.excl.comm.mpr ⟨p, by rw [hp]; trivial⟩] at hc
  cases hc

/-- Outside the commit `log.lh.n` is the number of distinct blocks logged. -/
theorem Shared.length_lh (h : Shared s) (hinv : LogInv g d0 s) (hc : s.log.committing = false) :
    s.log.lh.length = s.txn.dedup.length := by
  have hset : s.log.lh.toFinset = s.txn.toFinset := by
    ext b
    rw [List.mem_toFinset, List.mem_toFinset]
    exact h.opened hc b
  rw [← List.toFinset_card_of_nodup (hinv.txn hc).nodup, hset, List.card_toFinset]

/-! ## When the log is full -/

/-- The condition that a `log_write` is made while the operations that share the
transaction have logged at most `LOGSIZE - 2` distinct blocks. -/
def SpaceLeft (s : LogSys n) : Act n → Prop
  | .logWrite _ _ => s.txn.dedup.length ≤ LOGSIZE - 2
  | _ => True

theorem Shared.full_iff (h : Shared s) (hinv : LogInv g d0 s) (hsz : g.size = LOGSIZE)
    (hl : (b, p) ∈ s.locks) :
    s.full g ↔ ¬ SpaceLeft s (.logWrite p b) := by
  have hlen := h.length_lh hinv (hinv.not_committing hl)
  have h30 : LOGSIZE = 30 := rfl
  simp only [full, SpaceLeft, hlen, hsz, h30]
  omega

theorem Shared.run (hsz : 1 ≤ g.size) (hhd : g.header d0 = []) {acts : List (Act n)}
    (hr : Run.exec (logStep g) (LogSys.init n d0) acts = some s) :
    Shared s ∧ LogInv g d0 s :=
  Run.exec_invariant (I := fun s => Shared s ∧ LogInv g d0 s)
    (fun _ _ _ hi hst => ⟨hi.1.step hi.2 (logStep_cases hst).2, hi.2.step hst⟩)
    ⟨.init n d0, .init hsz hhd⟩ hr

/-- On the layout of `mkfs` a run reaches `panic("too big a transaction")`
exactly if one of its calls of `log_write` is made when the operations that share
the transaction have logged `LOGSIZE - 1` distinct blocks. -/
theorem no_tooBig_iff (g : Geom) (hsz : g.size = LOGSIZE) (n : Nat) (d0 : Disk)
    (hhd : g.header d0 = []) (acts : List (Act n)) (s : LogSys n)
    (hr : Run.exec (logStep g) (LogSys.init n d0) acts = some s) :
    s.panic ≠ some .tooBig ↔ Run.Meets (logStep g) SpaceLeft (LogSys.init n d0) acts := by
  have hsz' : 1 ≤ g.size := by rw [hsz]; decide
  refine Run.exec_history
    (I := fun as s => s.panic ≠ some .tooBig ↔ Run.Meets (logStep g) SpaceLeft _ as)
    ?_ ?_ hr
  · exact ⟨fun _ => trivial, fun _ => by simp [LogSys.init]⟩
  · intro as a s₁ s₂ hex ih hst
    obtain ⟨hnone, hk⟩ := logStep_cases hst
    obtain ⟨hsh, hinv⟩ := Shared.run hsz' hhd hex
    -- no panic so far, so the condition held so far and this step decides
    have hbefore := ih.mp (by rw [hnone]; simp)
    rw [Run.meets_snoc hex]
    suffices hlast : s₂.panic ≠ some .tooBig ↔ SpaceLeft s₁ a by
      exact hlast.trans ⟨fun h => ⟨hbefore, h⟩, fun h => h.2⟩
    cases hk with
    | tooBig hl hf =>
        exact ⟨fun h => absurd rfl h, fun h => absurd h ((hsh.full_iff hinv hsz hl).mp hf)⟩
    | outsideTrans hl hf _ =>
        exact ⟨fun _ => by_contra fun h => hf ((hsh.full_iff hinv hsz hl).mpr h), fun _ => by simp⟩
    | record hl hf _ =>
        refine ⟨fun _ => by_contra fun h => hf ((hsh.full_iff hinv hsz hl).mpr h), fun _ => ?_⟩
        show s₁.panic ≠ _
        rw [hnone]
        simp
    | committing _ _ => exact ⟨fun _ => trivial, fun _ => by simp⟩
    | _ =>
        refine ⟨fun _ => trivial, fun _ => ?_⟩
        show s₁.panic ≠ _
        rw [hnone]
        simp

/-! ## The blocks of one operation -/

/-- The blocks an operation has passed to `log_write`. -/
def LogSys.blocksOf (s : LogSys n) (o : OpId n) : List Nat :=
  (s.hist.filter (·.op = o)).map (·.block)

/-- The condition that an operation calls `log_write` on at most `k` distinct
blocks. -/
def OpLimit (k : Nat) (s : LogSys n) : Act n → Prop
  | .logWrite p b => (b :: s.blocksOf (s.op p)).dedup.length ≤ k
  | _ => True

instance (k : Nat) (s : LogSys n) : ∀ a, Decidable (OpLimit k s a)
  | .logWrite p b => inferInstanceAs (Decidable ((b :: s.blocksOf (s.op p)).dedup.length ≤ k))
  | .callBegin _ | .beginOp _ | .bread _ _ | .modify _ _ _ | .brelse _ _ | .endOp _ | .commit _
  | .endCommit _ | .evict _ => inferInstanceAs (Decidable True)

/-- Process `p` logs `k` blocks from `b` on. -/
def logBlocks (k : Nat) (p : Fin 3) (b : Nat) : List (Act 3) :=
  (List.range k).flatMap fun i =>
    [.bread p (b + i), .logWrite p (b + i), .brelse p (b + i)]

/-- Three processes are admitted, and each logs `k` blocks.  The run ends with the last
`log_write`. -/
def threeOps (k : Nat) : List (Act 3) :=
  [.callBegin 0, .callBegin 1, .callBegin 2, .beginOp 0, .beginOp 1, .beginOp 2] ++
    (logBlocks k 0 100 ++ logBlocks k 1 200 ++ logBlocks k 2 300).dropLast

theorem threeOps_panic :
    (Run.exec (logStep ⟨2, LOGSIZE⟩) (LogSys.init 3 oneBlock.disk) (threeOps MAXOPBLOCKS)).map
      (·.panic) = some (some .tooBig) := by
  decide +kernel

theorem threeOps_fits : (Run.exec (logStep ⟨2, LOGSIZE⟩) (LogSys.init 3 oneBlock.disk)
    (threeOps (MAXOPBLOCKS - 1))).map (fun s => (s.panic, s.log.lh.length)) =
      some (none, 3 * (MAXOPBLOCKS - 1)) := by
  decide +kernel

/-- Three operations of `MAXOPBLOCKS` distinct blocks each reach
`panic("too big a transaction")` on the layout of `mkfs`. -/
theorem threeOps_tooBig :
    Run.Meets (logStep ⟨2, LOGSIZE⟩) (OpLimit MAXOPBLOCKS) (LogSys.init 3 oneBlock.disk)
      (threeOps MAXOPBLOCKS) ∧
    (Run.exec (logStep ⟨2, LOGSIZE⟩) (LogSys.init 3 oneBlock.disk) (threeOps MAXOPBLOCKS)).map
      (·.panic) = some (some .tooBig) :=
  ⟨by decide +kernel, threeOps_panic⟩

/-- Three operations meet the condition with one block less each. -/
theorem no_tooBig_iff_threeOps :
    Run.Meets (logStep ⟨2, LOGSIZE⟩) SpaceLeft (LogSys.init 3 oneBlock.disk)
      (threeOps (MAXOPBLOCKS - 1)) ∧
    ¬ Run.Meets (logStep ⟨2, LOGSIZE⟩) SpaceLeft (LogSys.init 3 oneBlock.disk)
      (threeOps MAXOPBLOCKS) := by
  have hiff {acts s} := no_tooBig_iff ⟨2, LOGSIZE⟩ rfl 3 oneBlock.disk header_oneBlock acts s
  obtain ⟨s, hs, hfits⟩ := Option.map_eq_some_iff.mp threeOps_fits
  obtain ⟨s', hs', hpanic⟩ := Option.map_eq_some_iff.mp threeOps_panic
  exact ⟨(hiff hs).mp fun hbig => (nomatch hbig.symm.trans (congrArg Prod.fst hfits)),
    fun hmeets => (hiff hs').mpr hmeets hpanic⟩

/-! ## Operations of at most `MAXOPBLOCKS - 1` blocks -/

/-- How many distinct blocks the operation of a process has logged. -/
def LogSys.logged (s : LogSys n) (p : Fin n) : Nat := (s.blocksOf (s.op p)).dedup.length

/-- The blocks that the running operations may still log. -/
def LogSys.reserve (s : LogSys n) : Nat :=
  ∑ p ∈ running s.pc, (MAXOPBLOCKS - 1 - s.logged p)

/-- The running operations have room for `MAXOPBLOCKS - 1` blocks each. -/
structure Reserved (s : LogSys n) : Prop where
  /-- The blocks of a running operation are in the header. -/
  sub : ∀ p, s.pc p = .inOp → ∀ b ∈ s.blocksOf (s.op p), b ∈ s.log.lh
  room : s.log.committing = false → s.log.lh.length + s.reserve ≤ LOGSIZE - 2

theorem Reserved.init (n : Nat) (d : Disk) : Reserved (LogSys.init n d) where
  sub := by simp [LogSys.init]
  room := by simp [LogSys.init, Log.boot, reserve, running]

theorem logged_congr (hh : s'.hist = s.hist) (ho : s'.opno = s.opno) (p : Fin n) :
    s'.logged p = s.logged p := by
  rw [LogSys.logged, LogSys.logged, blocksOf, blocksOf, op, op, hh, ho]

/-- Steps that log nothing and begin no operation. -/
theorem Reserved.frame (h : Reserved s) (hh : s'.hist = s.hist) (ho : s'.opno = s.opno)
    (hl : s'.log.lh = s.log.lh) (hc : s'.log.committing = false → s.log.committing = false)
    (hpc : running s'.pc ⊆ running s.pc) : Reserved s' := by
  refine ⟨fun p hp b hb => ?_, fun hf => ?_⟩
  · have hp' : s.pc p = .inOp := mem_running.mp (hpc (mem_running.mpr hp))
    rw [hl]
    rw [blocksOf, op, hh, ho] at hb
    exact h.sub p hp' b hb
  · have hle : s'.reserve ≤ s.reserve := by
      rw [LogSys.reserve, Finset.sum_congr rfl fun p _ => by rw [logged_congr hh ho]]
      exact Finset.sum_le_sum_of_subset hpc
    have := h.room (hc hf)
    rw [hl]
    omega

theorem reserve_le (s : LogSys n) : s.reserve ≤ active s.pc * (MAXOPBLOCKS - 1) := by
  have h := Finset.sum_le_card_nsmul (running s.pc) (fun p => MAXOPBLOCKS - 1 - s.logged p)
    (MAXOPBLOCKS - 1) fun p _ => Nat.sub_le ..
  exact h

/-- `begin_op` admits an operation: the first one finds the header empty, and
for a later one the reservation of `MAXOPBLOCKS` each leaves a block for every
operation. -/
theorem Reserved.enter (h : Reserved s) (hsh : Shared s) (hinv : LogInv g d0 s)
    (hp : s.pc p = .beginOp) (hc : s.log.committing = false) (hsp : ¬ s.noSpace) :
    Reserved (s.enter p) := by
  have hpi : p ∉ running s.pc := by rw [mem_running, hp]; simp
  have hother : ∀ q, q ≠ p → (s.enter p).op q = s.op q := by
    intro q hq
    show (q, Function.update s.opno p (s.opno p + 1) q) = (q, s.opno q)
    rw [Function.update_of_ne hq]
  have hnew : (s.enter p).blocksOf ((s.enter p).op p) = [] := by
    rw [blocksOf, List.map_eq_nil_iff, List.filter_eq_nil_iff]
    intro w hw hop
    have hop' : w.op = (p, s.opno p + 1) := by simpa [op, LogSys.enter] using hop
    rcases hinv.ops.hist w hw with hend | ⟨hin, -⟩
    · have := (hinv.ops.fresh _ hend).1
      rw [hop'] at this
      exact absurd this (Nat.not_succ_le_self _)
    · rw [hop', hp] at hin
      cases hin
  refine ⟨fun q hq b hb => ?_, fun _ => ?_⟩
  · by_cases hqp : q = p
    · subst hqp
      rw [hnew] at hb
      cases hb
    · rw [hother q hqp] at hb
      rw [LogSys.enter, goto_pc, Function.update_of_ne hqp] at hq
      exact h.sub q hq b hb
  · have hsum : (s.enter p).reserve = s.reserve + (MAXOPBLOCKS - 1) := by
      have hrun : running (s.enter p).pc = insert p (running s.pc) := running_update_enter ..
      rw [LogSys.reserve, hrun, Finset.sum_insert hpi, LogSys.logged, hnew, Nat.add_comm]
      congr 1
      refine Finset.sum_congr rfl fun q hq => ?_
      have hqp : q ≠ p := by rintro rfl; exact hpi hq
      rw [LogSys.logged, LogSys.logged, hother q hqp]
      rfl
    have hle := reserve_le s
    show s.log.lh.length + (s.enter p).reserve ≤ LOGSIZE - 2
    rw [hsum]
    simp only [noSpace, hinv.excl.count, not_lt, gt_iff_lt] at hsp
    have h30 : LOGSIZE = 30 := rfl
    have h10 : MAXOPBLOCKS = 10 := rfl
    have h9 : MAXOPBLOCKS - 1 = 9 := rfl
    rw [h9] at hle ⊢
    rw [h10, h30] at hsp
    rw [h30]
    by_cases hact : active s.pc = 0
    · have hlh : s.log.lh.length = 0 := by
        rw [hsh.length_lh hinv hc, hsh.idle (active_eq_zero.mp hact)]
        rfl
      rw [hact] at hle
      omega
    · omega

/-- `log_write` on a block the operation may still log. -/
theorem Reserved.record (h : Reserved s) (hp : s.pc p = .inOp) (hc : s.log.committing = false)
    (hlim : OpLimit (MAXOPBLOCKS - 1) s (.logWrite p b)) : Reserved (s.record p b) := by
  have hblocks : ∀ q, (s.record p b).blocksOf ((s.record p b).op q) =
      s.blocksOf (s.op q) ++ if q = p then [b] else [] := by
    intro q
    have hhist : (s.record p b).hist = s.hist ++ [⟨s.op p, b, s.log.bread b⟩] := rfl
    have hop : (s.record p b).op q = s.op q := rfl
    rw [blocksOf, hhist, hop, List.filter_append, List.map_append]
    by_cases hqp : q = p
    · subst hqp
      simp [blocksOf]
    · have hne : ¬ s.op p = s.op q := fun he => hqp (congrArg Prod.fst he).symm
      simp [blocksOf, hqp, hne]
  refine ⟨fun q hq c hcm => ?_, fun _ => ?_⟩
  · rw [mem_lh_record]
    rw [hblocks q] at hcm
    rcases List.mem_append.mp hcm with hcm | hcm
    · exact .inl (h.sub q hq c hcm)
    · split at hcm
      · exact .inr (List.mem_singleton.mp hcm)
      · cases hcm
  · have hroom := h.room hc
    have hmem : p ∈ running s.pc := mem_running.mpr hp
    have hrest : ∑ q ∈ (running s.pc).erase p, (MAXOPBLOCKS - 1 - (s.record p b).logged q) =
        ∑ q ∈ (running s.pc).erase p, (MAXOPBLOCKS - 1 - s.logged q) := by
      refine Finset.sum_congr rfl fun q hq => ?_
      rw [LogSys.logged, hblocks q, if_neg (Finset.ne_of_mem_erase hq), List.append_nil]
      rfl
    have hsplit : (s.record p b).reserve = (MAXOPBLOCKS - 1 - (s.record p b).logged p) +
        ∑ q ∈ (running s.pc).erase p, (MAXOPBLOCKS - 1 - s.logged q) := by
      rw [← hrest]
      exact (Finset.add_sum_erase _ _ hmem).symm
    have hold : s.reserve = (MAXOPBLOCKS - 1 - s.logged p) +
        ∑ q ∈ (running s.pc).erase p, (MAXOPBLOCKS - 1 - s.logged q) :=
      (Finset.add_sum_erase _ _ hmem).symm
    have hlog : (s.record p b).logged p = (b :: s.blocksOf (s.op p)).dedup.length := by
      rw [LogSys.logged, hblocks p, if_pos rfl]
      exact (List.perm_append_singleton _ _).dedup.length_eq
    simp only [OpLimit] at hlim
    rw [hsplit, hlog]
    rw [hold, LogSys.logged] at hroom
    -- a block that is new to the operation uses up one of the reserved blocks
    by_cases hb : b ∈ s.blocksOf (s.op p)
    · have hlh : (s.record p b).log.lh = s.log.lh := by
        simp only [LogSys.record, if_pos (h.sub p hp b hb)]
      rw [hlh, List.dedup_cons_of_mem hb]
      exact hroom
    · have hlh : (s.record p b).log.lh.length ≤ s.log.lh.length + 1 := by
        simp only [LogSys.record]
        split <;> simp
      rw [List.dedup_cons_of_notMem hb, List.length_cons] at hlim ⊢
      omega

theorem Reserved.step (h : Reserved s) (hsh : Shared s) (hinv : LogInv g d0 s)
    (hlim : OpLimit (MAXOPBLOCKS - 1) s a) (hst : LogStep g s a s') : Reserved s' := by
  have hgoto : ∀ (p : Fin n) (x : Pc), x ≠ .inOp →
      running (Function.update s.pc p x) ⊆ running s.pc := by
    intro p x hx
    rw [running_update_of_ne _ _ hx]
    exact Finset.erase_subset ..
  cases hst with
  | callBegin _ => exact h.frame rfl rfl rfl id (hgoto _ _ (by simp))
  | sleep _ => exact h.frame rfl rfl rfl id (hgoto _ _ (by simp))
  | enter hp hc hsp => exact h.enter hsh hinv hp hc hsp
  | bread _ _ _ _ => exact h.frame rfl rfl rfl id (Finset.Subset.refl _)
  | modify _ => exact h.frame rfl rfl rfl id (Finset.Subset.refl _)
  | tooBig _ _ => exact h.frame rfl rfl rfl id (Finset.Subset.refl _)
  | outsideTrans _ _ _ => exact h.frame rfl rfl rfl id (Finset.Subset.refl _)
  | record hl _ _ => exact h.record (hinv.excl.locks _ hl) (hinv.not_committing hl) hlim
  | brelse _ _ => exact h.frame rfl rfl rfl id (Finset.Subset.refl _)
  | committing hp hc => exact absurd hp (hinv.excl.quiet hc _)
  | endLast _ _ _ _ => exact h.frame rfl rfl rfl (fun hf => (by cases hf)) (hgoto _ _ (by simp))
  | @endOther p _ _ _ _ =>
      refine h.frame rfl rfl rfl id ?_
      rw [goto_pc, running_update_of_ne _ _ (by simp), running_wakeup]
      exact Finset.erase_subset ..
  | doCommit _ => exact h.frame rfl rfl rfl id (hgoto _ _ (by simp))
  | @commit p c hp =>
      have hc : s.log.committing = true := hinv.excl.comm.mpr ⟨p, by rw [hp]; trivial⟩
      refine ⟨fun q hq => absurd ?_ (hinv.excl.quiet hc q), fun hf => ?_⟩
      · exact mem_running.mp (hgoto _ _ (by simp) (mem_running.mpr hq))
      · rw [(commitStep_counters g (s.log, c)).2, hc] at hf
        cases hf
  | @endCommit p hp =>
      have hc : s.log.committing = true := hinv.excl.comm.mpr ⟨p, by rw [hp]; trivial⟩
      obtain ⟨D, fin, cur, -, -, hcom⟩ := hinv.disk
      obtain ⟨t, -, -, -, -, hlh, -⟩ := hcom p .done hp
      have hrun : running (s.wakeup.goto p .idle).pc = ∅ := by
        rw [goto_pc, running_update_of_ne _ _ (by simp), running_wakeup,
          Finset.card_eq_zero.mp (active_eq_zero.mpr (hinv.excl.quiet hc)), Finset.erase_empty]
      refine ⟨fun q hq => ?_, fun _ => ?_⟩
      · have hmem := mem_running.mpr hq
        rw [hrun] at hmem
        cases hmem
      · rw [LogSys.reserve, hrun]
        show s.log.lh.length + 0 ≤ _
        rw [hlh]
        exact Nat.zero_le _
  | evict _ _ => exact h.frame rfl rfl rfl id (Finset.Subset.refl _)

/-- Operations that log at most `MAXOPBLOCKS - 1` distinct blocks each never
reach `panic("too big a transaction")` on the layout of `mkfs`. -/
theorem no_tooBig_of_opLimit {d0 : Disk} (hsz : g.size = LOGSIZE) (hhd : g.header d0 = [])
    {acts : List (Act n)} {s : LogSys n}
    (hr : Run.exec (logStep g) (LogSys.init n d0) acts = some s)
    (hlim : Run.Meets (logStep g) (OpLimit (MAXOPBLOCKS - 1)) (LogSys.init n d0) acts) :
    s.panic ≠ some .tooBig := by
  have hsz' : 1 ≤ g.size := by rw [hsz]; decide
  refine (Run.exec_invariant_of_meets
    (I := fun s => (Reserved s ∧ Shared s ∧ LogInv g d0 s) ∧ s.panic ≠ some .tooBig)
    ?_ ⟨⟨.init n d0, .init n d0, .init hsz' hhd⟩, by simp [LogSys.init]⟩ hlim hr).2
  rintro s a s' ⟨⟨hres, hsh, hinv⟩, -⟩ hC hst
  obtain ⟨hnone, hk⟩ := logStep_cases hst
  refine ⟨⟨hres.step hsh hinv hC hk, hsh.step hinv hk, hinv.step hst⟩, ?_⟩
  cases hk with
  | tooBig hl hf =>
      have hroom := hres.room (hinv.not_committing hl)
      have hleft := (hsh.full_iff hinv hsz hl).mp hf
      rw [SpaceLeft, ← hsh.length_lh hinv (hinv.not_committing hl)] at hleft
      omega
  | outsideTrans _ _ _ => simp
  | committing _ _ => simp
  | _ =>
      show s.panic ≠ _
      rw [hnone]
      simp

/-- Three operations at a time log 27 blocks. -/
theorem no_tooBig_of_opLimit_threeOps :
    ∃ s, Run.exec (logStep ⟨2, LOGSIZE⟩) (LogSys.init 3 oneBlock.disk)
      (threeOps (MAXOPBLOCKS - 1)) = some s ∧ s.log.lh.length = 27 ∧
      s.panic ≠ some .tooBig := by
  have hlim : Run.Meets (logStep ⟨2, LOGSIZE⟩) (OpLimit (MAXOPBLOCKS - 1))
      (LogSys.init 3 oneBlock.disk) (threeOps (MAXOPBLOCKS - 1)) := by decide +kernel
  obtain ⟨s, hs, hfits⟩ := Option.map_eq_some_iff.mp threeOps_fits
  exact ⟨s, hs, congrArg Prod.snd hfits, no_tooBig_of_opLimit rfl header_oneBlock hs hlim⟩

end Xv6
