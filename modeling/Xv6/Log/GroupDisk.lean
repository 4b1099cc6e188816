import Xv6.Log.GroupInvariant

/-!
# Group commit never exposes part of an operation

The steps of the concurrent log keep the disk and the buffers in order.  So at a
crash the disk logically holds the initial contents with the calls of
`log_write` of whole operations applied.  All of these had called `end_op`, and
every operation whose `end_op` returned after a commit is among them.
-/

namespace Xv6

open LogSys

variable {n b : Nat} {g : Geom} {t : List Nat} {d0 : Disk} {fin : List (LoggedWrite n)}
  {s s' : LogSys n} {p : Fin n} {l : Log} {c : CommitPc} {a : Act n}

/-! ## Steps keep the disk in order -/

theorem Names.snoc {h : List (LoggedWrite n)} (hn : Names h t) (w : LoggedWrite n) :
    Names (h ++ [w]) (if w.block ∈ t then t else t ++ [w.block]) := by
  intro b
  have hex : (∃ w' ∈ h ++ [w], w'.block = b) ↔ b ∈ t ∨ b = w.block := by
    rw [hn b]
    constructor
    · rintro ⟨w', hw', rfl⟩
      rcases List.mem_append.mp hw' with hw' | hw'
      · exact Or.inl ⟨w', hw', rfl⟩
      · rw [List.mem_singleton] at hw'
        exact Or.inr (by rw [hw'])
    · rintro (⟨w', hw', rfl⟩ | rfl)
      · exact ⟨w', List.mem_append_left _ hw', rfl⟩
      · exact ⟨w, by simp, rfl⟩
  rw [hex]
  split
  · rename_i hmem
    constructor
    · exact Or.inl
    · rintro (hb | rfl)
      · exact hb
      · exact hmem
  · simp

/-- Blocks outside the transaction are the same before and after it. -/
theorem Names.replay_eq {cur : List (LoggedWrite n)} (hn : Names cur t) (hb : b ∉ t) :
    replay d0 (fin ++ cur) b = replay d0 fin b := by
  rw [replay_append]
  refine replay_of_forall_ne cur _ fun w hw he => hb ((hn b).mpr ⟨w, hw, he⟩)

/-- `log_write` on a log that is not full. -/
theorem OpenTxn.record {cur : List (LoggedWrite n)} (h : OpenTxn g d0 s.log fin cur) (hb : g.Home b)
    (hlt : b < 2 ^ 32) (hfull : ¬ s.full g) :
    OpenTxn g d0 (s.record p b).log fin (cur ++ [⟨s.op p, b, s.log.bread b⟩]) := by
  have hnames := h.names.snoc ⟨s.op p, b, s.log.bread b⟩
  unfold full at hfull
  refine ⟨by rw [disk_record]; exact h.header, by rw [disk_record]; exact h.home, ?_, ?_, ?_⟩
  all_goals simp only [LogSys.record]; split <;> rename_i hmem
  · exact h.txn
  · refine ⟨?_, fun c hc => ?_, fun c hc => ?_, ?_, ?_⟩
    · exact List.nodup_append.mpr ⟨h.txn.nodup, List.nodup_singleton b, by
        intro a ha c hc
        rw [List.mem_singleton] at hc
        rintro rfl
        exact hmem (hc ▸ ha)⟩
    · rcases List.mem_append.mp hc with hc | hc
      · exact h.txn.home c hc
      · rw [List.mem_singleton] at hc
        rw [hc]
        exact hb
    · rcases List.mem_append.mp hc with hc | hc
      · exact h.txn.lt c hc
      · rw [List.mem_singleton] at hc
        rw [hc]
        exact hlt
    · simp only [List.length_append, List.length_singleton]
      omega
    · simp only [List.length_append, List.length_singleton]
      omega
  · rw [if_pos hmem] at hnames
    exact hnames
  · rw [if_neg hmem] at hnames
    exact hnames
  · exact h.pins
  · intro c
    by_cases hc : c = b
    · subst hc
      have := h.pins c
      rw [if_neg hmem] at this
      simp [this]
    · simp only [Function.update_of_ne hc, List.mem_append, List.mem_singleton, hc, or_false]
      exact h.pins c

theorem OpenTxn.committing {cur : List (LoggedWrite n)} (h : OpenTxn g d0 l fin cur)
    (hview : ∀ b, g.Home b → l.bread b = replay d0 (fin ++ cur) b) :
    Committing g d0 l (commitEntry l) fin cur := by
  refine ⟨l.lh, h.txn, h.names, ?_, CommitInv.entry h.header rfl h.home
    (fun b hb => hview b (h.txn.home b hb)) fun b _ hb => h.names.replay_eq hb⟩
  unfold commitEntry
  split
  · exact h.pins
  · rename_i hn
    have hnil : l.lh = [] := List.eq_nil_of_length_eq_zero (by omega)
    have := h.pins
    rw [hnil] at this
    exact this

theorem commitStep_pins {old new : Disk} (ht : Txn g t) (h : CommitInv g t old new (l, c))
    (hp : l.Pins (c.pinned t)) :
    (commitStep g (l, c)).1.Pins ((commitStep g (l, c)).2.pinned t) := by
  cases c with
  | writeLog tail => rw [commitStep]; split <;> exact hp
  | writeHead => exact hp
  | installTrans tail =>
      obtain ⟨-, -, hlh, -, -⟩ := h
      rw [commitStep]
      split
      · rename_i hlt
        have hlt' : tail < t.length := by rw [← hlh]; exact hlt
        have hdst : l.lh.getD tail 0 = t[tail] := by
          rw [getD_eq_getElem hlt]
          simp only [hlh]
        have hdrop : t.drop tail = t[tail] :: t.drop (tail + 1) :=
          List.drop_eq_getElem_cons hlt'
        have hnd : (t[tail] :: t.drop (tail + 1)).Nodup := by
          rw [← hdrop]
          exact ht.nodup.drop
        intro b
        have hb := hp b
        rw [CommitPc.pinned, hdrop] at hb
        show (Function.update l.pin (l.lh.getD tail 0) (l.pin (l.lh.getD tail 0) - 1)) b =
          if b ∈ t.drop (tail + 1) then 1 else 0
        rw [hdst]
        by_cases hbt : b = t[tail]
        · rw [hbt, Function.update_self, if_neg (List.nodup_cons.mp hnd).1]
          rw [hbt, if_pos List.mem_cons_self] at hb
          rw [hb]
        · rw [Function.update_of_ne hbt, hb]
          simp only [List.mem_cons, hbt, false_or]
      · rename_i hlt
        have hnil : t.drop tail = [] := by
          rw [hlh] at hlt
          exact List.drop_eq_nil_of_le (by omega)
        rw [CommitPc.pinned, hnil] at hp
        exact hp
  | clearHead => exact hp
  | done => exact hp

theorem Committing.step {cur : List (LoggedWrite n)} (h : Committing g d0 l c fin cur) :
    Committing g d0 (commitStep g (l, c)).1 (commitStep g (l, c)).2 fin cur := by
  obtain ⟨t, ht, hn, hp, hinv⟩ := h
  exact ⟨t, ht, hn, commitStep_pins ht hinv hp, hinv.step ht fun b _ hb => hn.replay_eq hb⟩

/-- `commit()` leaves the contents of the home blocks' buffers alone. -/
theorem Committing.bread_step {cur : List (LoggedWrite n)} (h : Committing g d0 l c fin cur)
    (hb : g.Home b) (hv : l.bread b = replay d0 (fin ++ cur) b) :
    (commitStep g (l, c)).1.bread b = replay d0 (fin ++ cur) b := by
  obtain ⟨t, ht, -, -, hinv⟩ := h
  cases c with
  | writeLog tail =>
      obtain ⟨-, -, hlh, -, -⟩ := hinv
      rw [commitStep]
      split
      · rename_i hlt
        have hne := ht.slot_ne (by rw [← hlh]; exact hlt) hb
        rw [Log.writeLogBody, Log.bread_bwrite_of_ne l hne, hv]
      · exact hv
  | writeHead => rw [commitStep, Log.writeHead, Log.bread_bwrite_of_ne l (ht.start_ne hb), hv]
  | installTrans tail =>
      obtain ⟨-, -, hlh, hslots, -⟩ := hinv
      rw [commitStep]
      split
      · rename_i hlt
        have hlt' : tail < t.length := by rw [← hlh]; exact hlt
        rw [Log.bread_installBody]
        split
        · rename_i hbt
          rw [(hslots tail hlt' hlt').2, hbt, getD_eq_getElem hlt]
          simp only [hlh]
        · exact hv
      · exact hv
  | clearHead => rw [commitStep, Log.writeHead, Log.bread_bwrite_of_ne l (ht.start_ne hb), hv]
  | done => exact hv

/-- A home block that is not pinned is on the disk as it is in its buffer. -/
theorem Committing.disk_eq {cur : List (LoggedWrite n)} (h : Committing g d0 l c fin cur)
    (hb : g.Home b) (hpin : l.pin b = 0) : l.disk b = replay d0 (fin ++ cur) b := by
  obtain ⟨t, ht, hn, hp, hinv⟩ := h
  have hnot : b ∉ c.pinned t := by
    intro hmem
    have := hp b
    rw [if_pos hmem] at this
    omega
  cases c with
  | writeLog tail => rw [hinv.2.1 b hb, hn.replay_eq hnot]
  | writeHead => rw [hinv.2.1 b hb, hn.replay_eq hnot]
  | installTrans tail =>
      obtain ⟨hh, hhd, -, -, hdone⟩ := hinv
      by_cases hmem : b ∈ t
      · obtain ⟨i, hi, rfl⟩ := List.getElem_of_mem hmem
        refine hdone i hi ?_
        by_contra hle
        refine hnot (List.mem_drop_iff_getElem.mpr ⟨i - tail, by omega, ?_⟩)
        congr 1
        omega
      · rw [← hh.eq b hb, Geom.logical, hhd, if_neg hmem]
  | clearHead => exact hinv.2.2 b hb
  | done => exact hinv.2.2 b hb

/-- Recycling a buffer that is not pinned does not disturb a commit. -/
theorem Committing.evict {cur : List (LoggedWrite n)} (h : Committing g d0 s.log c fin cur)
    (hpin : s.log.pin b = 0) : Committing g d0 (s.setBuf b none).log c fin cur := by
  obtain ⟨t, ht, hn, hp, hinv⟩ := h
  have hslots : ∀ {m}, s.log.Slots g t (replay d0 (fin ++ cur)) m →
      (s.setBuf b none).log.Slots g t (replay d0 (fin ++ cur)) m := by
    intro m hs i hi him
    refine ⟨(hs i hi him).1, ?_⟩
    rw [bread_setBuf]
    split
    · rename_i heq
      rw [Option.getD_none, ← heq]
      exact (hs i hi him).1
    · exact (hs i hi him).2
  have hbufs : b ∉ t → (∀ b' ∈ t, s.log.bread b' = replay d0 (fin ++ cur) b') →
      ∀ b' ∈ t, (s.setBuf b none).log.bread b' = replay d0 (fin ++ cur) b' := by
    intro hbt hv b' hb'
    have hne : b' ≠ b := by rintro rfl; exact hbt hb'
    rw [bread_setBuf, if_neg hne]
    exact hv b' hb'
  have hnot : b ∉ c.pinned t := by
    intro hmem
    have := hp b
    rw [if_pos hmem] at this
    omega
  refine ⟨t, ht, hn, hp, ?_⟩
  cases c with
  | writeLog tail =>
      obtain ⟨hhd, hold, hlh, hnew, hs⟩ := hinv
      exact ⟨hhd, hold, hlh, hbufs hnot hnew, hslots hs⟩
  | writeHead =>
      obtain ⟨hhd, hold, hlh, hnew, hs⟩ := hinv
      exact ⟨hhd, hold, hlh, hbufs hnot hnew, hslots hs⟩
  | installTrans tail =>
      obtain ⟨hh, hhd, hlh, hs, hdone⟩ := hinv
      exact ⟨hh, hhd, hlh, hslots hs, hdone⟩
  | clearHead => exact hinv
  | done => exact hinv

/-- Steps that keep the split and the open transaction, or the commit. -/
theorem OnDisk.frame (h : OnDisk g d0 s) (hh : s'.hist = s.hist)
    (he : ∀ o ∈ s.ended, o ∈ s'.ended) (hsy : s'.synced = s.synced)
    (hpc : ∀ p c, s'.pc p = .commit c ↔ s.pc p = .commit c)
    (hd : s'.log.disk = s.log.disk) (hl : s'.log.lh = s.log.lh) (hpin : s'.log.pin = s.log.pin)
    (hc : ∀ p c fin cur, s.pc p = .commit c → Committing g d0 s.log c fin cur →
      Committing (n := n) g d0 s'.log c fin cur) : OnDisk g d0 s' := by
  obtain ⟨D, fin, cur, hsp, hopen, hcom⟩ := h
  refine ⟨D, fin, cur, ⟨hh.trans hsp.eq, hsp.fin, hsp.cur, fun o ho => he o (hsp.ended o ho),
    by rw [hsy]; exact hsp.synced⟩, fun hno => ?_, fun p c hp => ?_⟩
  · have ho := hopen fun p c hp => hno p c ((hpc p c).mpr hp)
    refine ⟨by rw [hd]; exact ho.header, by rw [hd]; exact ho.home, by rw [hl]; exact ho.txn,
      by rw [hl]; exact ho.names, ?_⟩
    intro b
    rw [hpin, hl]
    exact ho.pins b
  · have hp' := (hpc p c).mp hp
    exact hc p c fin cur hp' (hcom p c hp')

/-- While a process is in an operation, no process is in `commit()`. -/
theorem Exclusion.no_commit (h : Exclusion s) (hp : s.pc p = .inOp) (q : Fin n) (c : CommitPc) :
    s.pc q ≠ .commit c := by
  intro hq
  exact h.quiet (h.comm.mpr ⟨q, by rw [hq]; trivial⟩) p hp

theorem update_commit {pc : Fin n → Pc} {x : Pc} (hp : ∀ c, pc p ≠ .commit c)
    (hx : ∀ c, x ≠ .commit c) (q : Fin n) (c : CommitPc) :
    Function.update pc p x q = .commit c ↔ pc q = .commit c := by
  by_cases hqp : q = p
  · subst hqp
    simp [hp, hx]
  · rw [Function.update_of_ne hqp]

/-- After a move of the committing process, a process in `commit()` is that process. -/
theorem Exclusion.commit_eq (h : Exclusion s) (hp : (s.pc p).InCommit) {x : Pc} {q : Fin n}
    (hq : Function.update s.pc p x q = .commit c) : x = .commit c := by
  by_cases hqp : q = p
  · rwa [hqp, Function.update_self] at hq
  · rw [Function.update_of_ne hqp] at hq
    exact absurd (h.uniq q p (by rw [hq]; trivial) hp) hqp

theorem LogInv.record_onDisk (h : LogInv g d0 s) (hl : (b, p) ∈ s.locks) (hfull : ¬ s.full g) :
    OnDisk g d0 (s.record p b) := by
  have hp := h.excl.locks _ hl
  have hhome := h.bufs.home _ hl
  obtain ⟨D, fin, cur, hsp, hopen, -⟩ := h.disk
  refine ⟨D, fin, cur ++ [⟨s.op p, b, s.log.bread b⟩], ⟨?_, hsp.fin, fun w hw => ?_,
    hsp.ended, hsp.synced⟩, fun _ => ?_, fun q c hq => absurd hq (h.excl.no_commit hp q c)⟩
  · show s.hist ++ _ = _
    rw [hsp.eq, List.append_assoc]
  · rcases List.mem_append.mp hw with hw | hw
    · exact hsp.cur w hw
    · rw [List.mem_singleton] at hw
      subst hw
      exact fun hD => h.ops.running hp (hsp.ended _ hD)
  · exact (hopen fun q c => h.excl.no_commit hp q c).record hhome.1 hhome.2 hfull

/-- The commit begins with what the operations have logged. -/
theorem LogInv.doCommit_onDisk (h : LogInv g d0 s) (hp : s.pc p = .doCommit) :
    OnDisk g d0 (s.goto p (.commit (commitEntry s.log))) := by
  have hpc : (s.pc p).InCommit := by rw [hp]; trivial
  have hcm : s.log.committing = true := h.excl.comm.mpr ⟨p, hpc⟩
  have hother : ∀ q c, s.pc q ≠ .commit c := by
    intro q c hq
    have heq := h.excl.uniq q p (by rw [hq]; trivial) hpc
    rw [heq, hp] at hq
    cases hq
  have hclean : ∀ b, s.dirty b = false := by
    intro b
    by_contra hd
    obtain ⟨e, he, -⟩ := List.mem_map.mp (h.bufs.dirty b (by simpa using hd))
    exact h.excl.quiet hcm _ (h.excl.locks e he)
  obtain ⟨D, fin, cur, hsp, hopen, -⟩ := h.disk
  refine ⟨D, fin, cur, ⟨hsp.eq, hsp.fin, hsp.cur, hsp.ended, hsp.synced⟩, fun hno => ?_,
    fun q c hq => ?_⟩
  · exact absurd (by rw [goto_pc, Function.update_self]) (hno p (commitEntry s.log))
  · cases h.excl.commit_eq hpc hq
    refine (hopen hother).committing fun b hbh => ?_
    rw [h.bufs.view b hbh (hclean b), hsp.eq]

theorem LogInv.commit_onDisk (h : LogInv g d0 s) (hp : s.pc p = .commit c) :
    OnDisk g d0 { s.goto p (.commit (commitStep g (s.log, c)).2) with
      log := (commitStep g (s.log, c)).1 } := by
  obtain ⟨D, fin, cur, hsp, -, hcom⟩ := h.disk
  refine ⟨D, fin, cur, ⟨hsp.eq, hsp.fin, hsp.cur, hsp.ended, hsp.synced⟩, fun hno => ?_,
    fun q c' hq => ?_⟩
  · exact absurd (by rw [goto_pc, Function.update_self]) (hno p (commitStep g (s.log, c)).2)
  · cases h.excl.commit_eq (by rw [hp]; trivial) hq
    exact (hcom p c hp).step

/-- After the commit the whole history is committed, by operations that have all ended. -/
theorem LogInv.endCommit_onDisk (h : LogInv g d0 s) (hp : s.pc p = .commit .done) :
    OnDisk g d0 { s.wakeup.goto p .idle with
      log := { s.log with committing := false }
      synced := s.synced ++ [s.op p] } := by
  have hpc : (s.pc p).InCommit := by rw [hp]; trivial
  have hcm : s.log.committing = true := h.excl.comm.mpr ⟨p, hpc⟩
  obtain ⟨D, fin, cur, hsp, -, hcom⟩ := h.disk
  obtain ⟨t, ht, -, hpins, hhd, hlh, hhome⟩ := hcom p .done hp
  refine ⟨s.ended, s.hist, [], ⟨(List.append_nil _).symm, fun w hw => ?_, by simp,
    fun _ ho => ho, fun o ho => ?_⟩, fun _ => ?_, fun q c hq => ?_⟩
  · rcases h.ops.hist w hw with hend | ⟨hin, -⟩
    · exact hend
    · exact absurd hin (h.excl.quiet hcm _)
  · rcases List.mem_append.mp ho with ho | ho
    · exact hsp.ended o (hsp.synced o ho)
    · rw [List.mem_singleton] at ho
      subst ho
      exact h.ops.committer p hpc
  · refine ⟨hhd, fun b hbh => ?_, ?_, ?_, ?_⟩
    · rw [hsp.eq]
      exact hhome b hbh
    · show Txn g s.log.lh
      rw [hlh]
      exact .nil (by have := ht.fits; omega)
    · show Names [] s.log.lh
      rw [hlh]
      simp [Names]
    · show s.log.Pins s.log.lh
      rw [hlh]
      exact hpins
  · by_cases hqp : q = p
    · subst hqp
      rw [goto_pc, Function.update_self] at hq
      cases hq
    · rw [goto_pc, Function.update_of_ne hqp, wakeup_pc_eq (by simp) (by simp)] at hq
      exact absurd (h.excl.uniq q p (by rw [hq]; trivial) hpc) hqp

theorem OnDisk.step (h : LogInv g d0 s) (hst : LogStep g s a s') : OnDisk g d0 s' := by
  have hx := h.excl
  have hdisk := h.disk
  cases hst with
  | callBegin hp =>
      exact hdisk.frame rfl (fun _ ho => ho) rfl (update_commit (by simp [hp]) (by simp))
        rfl rfl rfl fun _ _ _ _ _ hc => hc
  | sleep hp =>
      exact hdisk.frame rfl (fun _ ho => ho) rfl (update_commit (by simp [hp]) (by simp))
        rfl rfl rfl fun _ _ _ _ _ hc => hc
  | enter hp hcm _ =>
      refine hdisk.frame rfl (fun _ ho => ho) rfl (update_commit (by simp [hp]) (by simp))
        rfl rfl rfl fun q c _ _ hq => ?_
      rw [hx.comm.mpr ⟨q, by rw [hq]; trivial⟩] at hcm
      cases hcm
  | bread hp _ _ _ =>
      exact hdisk.frame rfl (fun _ ho => ho) rfl (fun _ _ => Iff.rfl) rfl rfl rfl
        fun q c _ _ hq => absurd hq (hx.no_commit hp q c)
  | modify hl =>
      exact hdisk.frame rfl (fun _ ho => ho) rfl (fun _ _ => Iff.rfl) rfl rfl rfl
        fun q c _ _ hq => absurd hq (hx.no_commit (hx.locks _ hl) q c)
  | tooBig _ _ =>
      exact hdisk.frame rfl (fun _ ho => ho) rfl (fun _ _ => Iff.rfl) rfl rfl rfl
        fun _ _ _ _ _ hc => hc
  | outsideTrans _ _ _ =>
      exact hdisk.frame rfl (fun _ ho => ho) rfl (fun _ _ => Iff.rfl) rfl rfl rfl
        fun _ _ _ _ _ hc => hc
  | record hl hfull _ => exact h.record_onDisk hl hfull
  | brelse _ _ =>
      exact hdisk.frame rfl (fun _ ho => ho) rfl (fun _ _ => Iff.rfl) rfl rfl rfl
        fun _ _ _ _ _ hc => hc
  | committing hp hc => exact absurd hp (hx.quiet hc _)
  | @endLast p hp _ _ _ =>
      have hpl : ∀ c, (s.leave p).pc p ≠ .commit c := hx.no_commit hp p
      exact hdisk.frame rfl (fun _ ho => List.mem_append_left _ ho) rfl
        (update_commit hpl (by simp)) rfl rfl rfl
        fun q c _ _ hq => absurd hq (hx.no_commit hp q c)
  | @endOther p hp _ _ _ =>
      refine hdisk.frame rfl (fun _ ho => List.mem_append_left _ ho) rfl (fun q c => ?_) rfl rfl rfl
        fun q c _ _ hq => absurd hq (hx.no_commit hp q c)
      have hpw : ∀ c, (s.leave p).wakeup.pc p ≠ .commit c := by
        intro c
        rw [Ne, wakeup_pc_eq (by simp) (by simp)]
        exact hx.no_commit hp p c
      exact (update_commit hpw (by simp) q c).trans (wakeup_pc_eq (by simp) (by simp))
  | doCommit hp => exact h.doCommit_onDisk hp
  | commit hp => exact h.commit_onDisk hp
  | endCommit hp => exact h.endCommit_onDisk hp
  | evict hpin _ =>
      exact hdisk.frame rfl (fun _ ho => ho) rfl (fun _ _ => Iff.rfl) rfl rfl rfl
        fun _ _ _ _ _ hc => hc.evict hpin

/-! ## Steps keep the buffers in order -/

/-- A home block that is neither pinned nor locked is on the disk as it is in its
buffer. -/
theorem LogInv.disk_eq (h : LogInv g d0 s) (hb : g.Home b) (hpin : s.log.pin b = 0) :
    s.log.disk b = replay d0 s.hist b := by
  obtain ⟨D, fin, cur, hsp, hopen, hcom⟩ := h.disk
  rw [hsp.eq]
  by_cases hc : ∃ p c, s.pc p = .commit c
  · obtain ⟨p, c, hp⟩ := hc
    exact (hcom p c hp).disk_eq hb hpin
  · have ho := hopen fun p c hp => hc ⟨p, c, hp⟩
    have hnot : b ∉ s.log.lh := by
      intro hmem
      have := ho.pins b
      rw [if_pos hmem] at this
      omega
    rw [ho.home b hb, ho.names.replay_eq hnot]

theorem Buffers.step (h : LogInv g d0 s) (hst : LogStep g s a s') : Buffers g d0 s' := by
  have hb := h.bufs
  cases hst with
  | callBegin _ => exact ⟨hb.home, hb.nodup, hb.dirty, hb.view⟩
  | sleep _ => exact ⟨hb.home, hb.nodup, hb.dirty, hb.view⟩
  | enter _ _ _ => exact ⟨hb.home, hb.nodup, hb.dirty, hb.view⟩
  | @bread p b _ hhome hlt hfree =>
      refine ⟨fun e he => ?_, ?_, fun c hc => ?_, fun c hc hd => ?_⟩
      · rcases List.mem_cons.mp he with rfl | he
        · exact ⟨hhome, hlt⟩
        · exact hb.home e he
      · exact List.nodup_cons.mpr ⟨hfree, hb.nodup⟩
      · exact List.mem_cons_of_mem _ (hb.dirty c hc)
      · rw [bread_setBuf]
        split
        · rename_i heq
          subst heq
          exact hb.view c hc hd
        · exact hb.view c hc hd
  | @modify p b v hl =>
      refine ⟨hb.home, hb.nodup, fun c hc => ?_, fun c hc hd => ?_⟩
      · by_cases hcb : c = b
        · subst hcb
          exact List.mem_map_of_mem hl
        · change Function.update s.dirty b true c = true at hc
          rw [Function.update_of_ne hcb] at hc
          exact hb.dirty c hc
      · change Function.update s.dirty b true c = false at hd
        have hcb : c ≠ b := by
          rintro rfl
          rw [Function.update_self] at hd
          cases hd
        rw [Function.update_of_ne hcb] at hd
        show (s.setBuf b (some v)).log.bread c = replay d0 s.hist c
        rw [bread_setBuf, if_neg hcb]
        exact hb.view c hc hd
  | tooBig _ _ => exact ⟨hb.home, hb.nodup, hb.dirty, hb.view⟩
  | outsideTrans _ _ _ => exact ⟨hb.home, hb.nodup, hb.dirty, hb.view⟩
  | @record p b _ _ _ =>
      refine ⟨hb.home, hb.nodup, fun c hc => ?_, fun c hc hd => ?_⟩
      · have hcb : c ≠ b := by
          rintro rfl
          simp [LogSys.record] at hc
        simp only [LogSys.record, Function.update_of_ne hcb] at hc
        exact hb.dirty c hc
      · rw [bread_record]
        show s.log.bread c = replay d0 (s.hist ++ [⟨s.op p, b, s.log.bread b⟩]) c
        rw [replay_snoc]
        by_cases hcb : c = b
        · subst hcb
          rw [Function.update_self]
        · rw [Function.update_of_ne hcb]
          simp only [LogSys.record, Function.update_of_ne hcb] at hd
          exact hb.view c hc hd
  | @brelse p b _ hd =>
      refine ⟨fun e he => hb.home e (List.mem_of_mem_erase he),
        hb.nodup.sublist (List.erase_sublist.map _), fun c hc => ?_, hb.view⟩
      have hcb : c ≠ b := by
        rintro rfl
        rw [hd] at hc
        cases hc
      obtain ⟨e, he, rfl⟩ := List.mem_map.mp (hb.dirty c hc)
      refine List.mem_map_of_mem ((List.mem_erase_of_ne ?_).mpr he)
      rintro rfl
      exact hcb rfl
  | committing _ _ => exact ⟨hb.home, hb.nodup, hb.dirty, hb.view⟩
  | endLast _ _ _ _ => exact ⟨hb.home, hb.nodup, hb.dirty, hb.view⟩
  | endOther _ _ _ _ => exact ⟨hb.home, hb.nodup, hb.dirty, hb.view⟩
  | doCommit _ => exact ⟨hb.home, hb.nodup, hb.dirty, hb.view⟩
  | @commit p c hp =>
      refine ⟨hb.home, hb.nodup, hb.dirty, fun c' hc' hd => ?_⟩
      obtain ⟨D, fin, cur, hsp, -, hcom⟩ := h.disk
      have hv := hb.view c' hc' hd
      rw [hsp.eq] at hv
      show (commitStep g (s.log, c)).1.bread c' = replay d0 s.hist c'
      rw [hsp.eq]
      exact (hcom p c hp).bread_step hc' hv
  | endCommit _ => exact ⟨hb.home, hb.nodup, hb.dirty, hb.view⟩
  | @evict b hpin _ =>
      refine ⟨hb.home, hb.nodup, hb.dirty, fun c hc hd => ?_⟩
      rw [bread_setBuf]
      split
      · rename_i heq
        subst heq
        exact h.disk_eq hc hpin
      · exact hb.view c hc hd

theorem LogInv.step (h : LogInv g d0 s) (hst : logStep g s a = some s') : LogInv g d0 s' := by
  have hk := (logStep_cases hst).2
  exact ⟨h.excl.step hk, Buffers.step h hk, h.ops.step h.excl hk, OnDisk.step h hk⟩

/-- The invariant holds after every run. -/
theorem LogInv.run (hsz : 1 ≤ g.size) (hhd : g.header d0 = []) {acts : List (Act n)}
    (hr : Run.exec (logStep g) (LogSys.init n d0) acts = some s) :
    LogInv g d0 s :=
  Run.exec_invariant (fun _ _ _ hi hst => hi.step hst) (.init hsz hhd) hr

/-! ## Group commit -/

theorem filter_op_eq_self {h : List (LoggedWrite n)} {S : List (OpId n)}
    (hS : ∀ w ∈ h, w.op ∈ S) : h.filter (·.op ∈ S) = h :=
  List.filter_eq_self.mpr fun w hw => decide_eq_true (hS w hw)

/-- The committed writes are those of the committed operations. -/
theorem Split.filter_eq {D : List (OpId n)} {cur : List (LoggedWrite n)} (h : Split s D fin cur) :
    s.hist.filter (·.op ∈ D) = fin := by
  have hcur : cur.filter (·.op ∈ D) = [] :=
    List.filter_eq_nil_iff.mpr fun w hw => by simpa using h.cur w hw
  rw [h.eq, List.filter_append, filter_op_eq_self h.fin, hcur, List.append_nil]

/-- At every moment the disk logically holds the initial contents with the
writes of some ended operations applied, the synced ones among them. -/
theorem LogInv.holds (h : LogInv g d0 s) (hsz : 1 ≤ g.size) :
    ∃ S : List (OpId n), (∀ o ∈ S, o ∈ s.ended) ∧ (∀ o ∈ s.synced, o ∈ S) ∧
      g.Holds s.log.disk (replay d0 (s.hist.filter (·.op ∈ S))) := by
  obtain ⟨D, fin, cur, hsp, hopen, hcom⟩ := h.disk
  by_cases hc : ∃ p c, s.pc p = .commit c
  · obtain ⟨p, c, hp⟩ := hc
    obtain ⟨t, ht, -, -, hinv⟩ := hcom p c hp
    by_cases hw : c.HeadWritten
    · -- the header is on the disk: the whole history counts, all its operations have ended
      have hcm : s.log.committing = true := h.excl.comm.mpr ⟨p, by rw [hp]; trivial⟩
      refine ⟨s.ended, fun _ ho => ho, fun o ho => hsp.ended o (hsp.synced o ho), ?_⟩
      rw [filter_op_eq_self fun w hw => ?_, hsp.eq]
      · exact hinv.holds_of_headWritten ht hw
      · rcases h.ops.hist w hw with hend | ⟨hin, -⟩
        · exact hend
        · exact absurd hin (h.excl.quiet hcm _)
    · refine ⟨D, hsp.ended, hsp.synced, ?_⟩
      rw [hsp.filter_eq]
      exact hinv.holds_of_not_headWritten ht hw
  · have ho := hopen fun p c hp => hc ⟨p, c, hp⟩
    refine ⟨D, hsp.ended, hsp.synced, ?_⟩
    rw [hsp.filter_eq]
    exact .of_nil hsz ho.header ho.home

/-- During a commit no step is a `log_write`, and none makes a process
outstanding. -/
theorem Exclusion.committing_step (h : Exclusion s) (hc : s.log.committing = true)
    (hst : LogStep g s a s') :
    s'.log.outstanding = s.log.outstanding ∧ (∀ p b, a ≠ .logWrite p b) := by
  have hlock : ∀ {e}, e ∉ s.locks := fun he => h.quiet hc _ (h.locks _ he)
  cases hst with
  | callBegin _ => exact ⟨rfl, by simp⟩
  | sleep _ => exact ⟨rfl, by simp⟩
  | enter _ hcf _ =>
      rw [hc] at hcf
      cases hcf
  | bread hp _ _ _ => exact absurd hp (h.quiet hc _)
  | modify hl => exact absurd hl hlock
  | tooBig hl _ => exact absurd hl hlock
  | outsideTrans hl _ _ => exact absurd hl hlock
  | record hl _ _ => exact absurd hl hlock
  | brelse hl _ => exact absurd hl hlock
  | committing hp _ => exact absurd hp (h.quiet hc _)
  | endLast hp _ _ _ => exact absurd hp (h.quiet hc _)
  | endOther hp _ _ _ => exact absurd hp (h.quiet hc _)
  | doCommit _ => exact ⟨rfl, by simp⟩
  | @commit p c _ => exact ⟨(commitStep_counters g (s.log, c)).1, by simp⟩
  | endCommit _ => exact ⟨rfl, by simp⟩
  | evict _ _ => exact ⟨rfl, by simp⟩

/-- In every state of every run of any number of processes: a process is in the
commit only while `log.outstanding` is 0 and `log.committing` is set, meanwhile
no process calls `log_write` or becomes outstanding, and
`panic("log.committing")` was not reached.  A crash there, followed by any
number of crashes during recovery and a completed recovery, leaves the home
blocks with the writes of a set `S` of operations applied in the order they were
made: only ended operations are in `S`, each with all of its writes, and every
operation whose `end_op` returned after performing the commit is. -/
theorem group_commit (g : Geom) (n : Nat) (d0 : Disk) (hsz : 1 ≤ g.size)
    (hhd : g.header d0 = []) (acts : List (Act n)) (s : LogSys n)
    (hr : Run.exec (logStep g) (LogSys.init n d0) acts = some s) :
    (∀ p, (s.pc p).InCommit → s.log.outstanding = 0 ∧ s.log.committing = true) ∧
    (s.log.committing = true → ∀ a s', logStep g s a = some s' →
      s'.log.outstanding = 0 ∧ ∀ p b, a ≠ .logWrite p b) ∧
    s.panic ≠ some .committing ∧
    ∀ d, Crashes g s.log.disk d → (∃ d', Recovers g d d') ∧
      ∀ d', Recovers g d d' → ∃ S : List (OpId n),
        (∀ o ∈ S, o ∈ s.ended) ∧ (∀ o ∈ s.synced, o ∈ S) ∧
        ∀ b, g.Home b → d' b = replay d0 (s.hist.filter (·.op ∈ S)) b := by
  have hinv : LogInv g d0 s := .run hsz hhd hr
  have hzero : s.log.committing = true → s.log.outstanding = 0 := by
    intro hc
    rw [hinv.excl.count, active_eq_zero.mpr (hinv.excl.quiet hc)]
    rfl
  refine ⟨fun p hp => ?_, fun hc a s' hst => ?_, hinv.excl.panic, fun d hd => ?_⟩
  · have hc := hinv.excl.comm.mpr ⟨p, hp⟩
    exact ⟨hzero hc, hc⟩
  · obtain ⟨ho, hne⟩ := hinv.excl.committing_step hc (logStep_cases hst).2
    exact ⟨ho.trans (hzero hc), hne⟩
  · refine ⟨recovers_exists g d, fun d' hrec => ?_⟩
    obtain ⟨S, hend, hsync, hholds⟩ := hinv.holds hsz
    exact ⟨S, hend, hsync, ((hholds.crashes hd).recovers hrec).2⟩

/-- A process logs a block filled with `x`. -/
def logFill (p : Fin 2) (b : Nat) (x : UInt8) : List (Act 2) :=
  [.bread p b, .modify p b fun _ => x, .logWrite p b, .brelse p b]

/-- Two operations log the same block and are committed together.  Then a third one is in `commit`
while a fourth waits for it. -/
def twoGroups : List (Act 2) :=
  List.flatten [[.callBegin 0, .callBegin 1, .beginOp 0, .beginOp 1], logFill 0 50 7,
    logFill 1 50 8, [.endOp 0, .endOp 1], List.replicate 7 (.commit 1),
    [.endCommit 1, .callBegin 0, .beginOp 0], logFill 0 51 9,
    [.endOp 0, .commit 0, .commit 0, .callBegin 1, .beginOp 1]]

theorem twoGroups_isSome :
    (Run.exec (logStep ⟨2, 30⟩) (LogSys.init 2 oneBlock.disk) twoGroups).isSome := by
  decide +kernel

/-- The block of the first group is on the disk after a crash in the second one. -/
theorem group_commit_twoGroups :
    ∃ s, Run.exec (logStep ⟨2, 30⟩) (LogSys.init 2 oneBlock.disk) twoGroups = some s ∧
      s.pc 1 = .sleeping ∧ s.log.outstanding = 0 ∧ s.log.committing = true ∧
      ∀ d', Recovers ⟨2, 30⟩ s.log.disk d' → d' 50 = fun _ => 8 := by
  have hs := (Option.some_get twoGroups_isSome).symm
  have hsleep : (Option.get _ twoGroups_isSome).pc 1 = .sleeping := by decide +kernel
  have hin : ((Option.get _ twoGroups_isSome).pc 0).InCommit := trivial
  have hsync : (Option.get _ twoGroups_isSome).synced = [(1, 1)] := by decide +kernel
  have hhist : (Option.get _ twoGroups_isSome).hist =
      [⟨(0, 1), 50, fun _ => 7⟩, ⟨(1, 1), 50, fun _ => 8⟩, ⟨(0, 2), 51, fun _ => 9⟩] := rfl
  obtain ⟨hcom, -, -, hrec⟩ :=
    group_commit ⟨2, 30⟩ 2 oneBlock.disk (by decide) header_oneBlock twoGroups _ hs
  refine ⟨_, hs, hsleep, (hcom 0 hin).1, (hcom 0 hin).2, fun d' hd' => ?_⟩
  obtain ⟨S, -, hS, heq⟩ := (hrec _ .refl).2 d' hd'
  rw [heq 50 (by decide), hhist]
  have hmem : (1, 1) ∈ S := hS _ (by rw [hsync]; exact List.mem_cons_self)
  by_cases h0 : (0, 1) ∈ S <;> by_cases h2 : (0, 2) ∈ S <;>
    simp [hmem, h0, h2, replay]

end Xv6
