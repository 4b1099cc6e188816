import Xv6.Log.Commit

/-!
# Crash atomicity of the log

A disk with a log stands for contents of the home blocks: a block named in the
header on the disk has the contents of its log slot, and every other block has
its own.  `Geom.logical` is this reading.  Every block write of the recovery
keeps it, so recovery may be cut short and repeated, and when it completes the
home blocks themselves hold the logical contents.  Every block write of
`commit()` keeps it too, except the first `write_head`, which replaces the old
contents by those of the transaction at once.
-/

namespace Xv6

variable {g : Geom} {d H d' : Disk} {lh : List Nat} {b i : Nat} {c : Log × RecoverPc}

/-! ## Logical contents -/

/-- The contents of a home block as the log sees them. -/
def Geom.logical (g : Geom) (d : Disk) (b : Nat) : Block :=
  if b ∈ g.header d then d (g.start + (g.header d).idxOf b + 1) else d b

/-- The disk has a well-formed header and its home blocks logically hold `H`. -/
structure Geom.Holds (g : Geom) (d H : Disk) : Prop where
  /-- The header names a transaction. -/
  txn : Txn g (g.header d)
  /-- The logical contents. -/
  eq : ∀ b, g.Home b → g.logical d b = H b

theorem Geom.logical_of_nil (h : g.header d = []) (b : Nat) : g.logical d b = d b := by
  simp [Geom.logical, h]

theorem Txn.start_ne (h : Txn g lh) (hb : g.Home b) : b ≠ g.start := by
  have := h.fits
  unfold Geom.Home at hb
  omega

/-- A log slot is not a home block. -/
theorem Txn.slot_ne (h : Txn g lh) (hi : i < lh.length) (hb : g.Home b) : b ≠ g.start + i + 1 := by
  have := h.fits
  unfold Geom.Home at hb
  omega

theorem Geom.header_update (hb : b ≠ g.start) (v : Block) :
    g.header (Function.update d b v) = g.header d := by
  unfold Geom.header
  rw [Function.update_of_ne hb.symm]

theorem Geom.header_update_start (d : Disk) (v : Block) :
    g.header (Function.update d g.start v) = getHeader v := by
  unfold Geom.header
  rw [Function.update_self]

/-- The logical contents of a block named in the header are those of its slot. -/
theorem Txn.logical_getElem (ht : Txn g (g.header d)) (hi : i < (g.header d).length) :
    g.logical d (g.header d)[i] = d (g.start + i + 1) := by
  rw [Geom.logical, if_pos (List.getElem_mem hi), ht.nodup.idxOf_getElem i hi]

/-- Copying a slot to its home block does not change the logical contents. -/
theorem Geom.Holds.install (h : g.Holds d H) (hi : i < (g.header d).length) :
    g.Holds (Function.update d (g.header d)[i] (d (g.start + i + 1))) H := by
  have hhome := h.txn.home _ (List.getElem_mem hi)
  have hhd : g.header (Function.update d (g.header d)[i] (d (g.start + i + 1))) = g.header d :=
    Geom.header_update (h.txn.start_ne hhome) _
  refine ⟨by rw [hhd]; exact h.txn, fun b hb => ?_⟩
  rw [← h.eq b hb, Geom.logical, Geom.logical, hhd]
  split
  · rename_i hmem
    have hj : (g.header d).idxOf b < (g.header d).length := List.idxOf_lt_length_of_mem hmem
    rw [Function.update_of_ne (h.txn.slot_ne hj hhome).symm]
  · rename_i hmem
    rw [Function.update_of_ne]
    rintro rfl
    exact hmem (List.getElem_mem hi)

/-- Erasing the header once the home blocks hold the logical contents. -/
theorem Geom.Holds.clear (hsz : 1 ≤ g.size) (hd : ∀ b, g.Home b → d b = H b) (buf : Block) :
    g.count (Function.update d g.start (putHeader buf [])) = 0 ∧
      ∀ b, g.Home b → Function.update d g.start (putHeader buf []) b = H b := by
  have hnil : g.count (Function.update d g.start (putHeader buf [])) = 0 := by
    unfold Geom.count
    rw [Function.update_self, getCount_putHeader buf (Nat.zero_le _)]
    rfl
  refine ⟨hnil, fun b hb => ?_⟩
  rw [Function.update_of_ne ((Txn.nil hsz).start_ne hb)]
  exact hd b hb

theorem Geom.Holds.of_nil (hsz : 1 ≤ g.size) (hhd : g.header d = [])
    (hd : ∀ b, g.Home b → d b = H b) : g.Holds d H := by
  refine ⟨by rw [hhd]; exact Txn.nil hsz, fun b hb => ?_⟩
  rw [Geom.logical_of_nil hhd]
  exact hd b hb

/-! ## Buffers -/

namespace Log

@[simp] theorem bread_bwrite (l : Log) (b : Nat) (v : Block) : (l.bwrite b v).bread b = v := by
  simp [bread, bwrite]

theorem bread_bwrite_of_ne (l : Log) {b c : Nat} (h : c ≠ b) (v : Block) :
    (l.bwrite b v).bread c = l.bread c := by
  simp [bread, bwrite, Function.update_of_ne h]

@[simp] theorem disk_bwrite (l : Log) (b : Nat) (v : Block) :
    (l.bwrite b v).disk = Function.update l.disk b v := rfl

@[simp] theorem bread_bunpin (l : Log) (b c : Nat) : (l.bunpin b).bread c = l.bread c := rfl

theorem lh_readHead (l : Log) : (l.readHead g).lh = getHeader (l.bread g.start) := by
  rw [readHead]

theorem disk_installBody (l : Log) (r : Bool) (tail : Nat) :
    (l.installBody g r tail).disk =
      Function.update l.disk (l.lh.getD tail 0) (l.bread (g.start + tail + 1)) := by
  cases r <;> rfl

theorem lh_installBody (l : Log) (r : Bool) (tail : Nat) : (l.installBody g r tail).lh = l.lh := by
  cases r <;> rfl

theorem bread_installBody (l : Log) (r : Bool) (tail b : Nat) :
    (l.installBody g r tail).bread b =
      if b = l.lh.getD tail 0 then l.bread (g.start + tail + 1) else l.bread b := by
  by_cases h : b = l.lh.getD tail 0
  · subst h
    cases r <;> simp [installBody]
  · rw [if_neg h, ← bread_bwrite_of_ne l h (l.bread (g.start + tail + 1))]
    cases r <;> rfl

/-- Every buffer holds what the disk holds. -/
def Coherent (l : Log) : Prop := ∀ b, l.bread b = l.disk b

theorem Coherent.bwrite {l : Log} (h : l.Coherent) (b : Nat) (v : Block) :
    (l.bwrite b v).Coherent := by
  intro c
  by_cases hc : c = b
  · subst hc
    simp
  · rw [bread_bwrite_of_ne l hc, disk_bwrite, Function.update_of_ne hc, h c]

end Log

theorem getD_eq_getElem (h : i < lh.length) : lh.getD i 0 = lh[i] := by
  simp [h]

/-! ## Recovery -/

/-- What holds at every point of a recovery that started from contents `H`. -/
def RecoverInv (g : Geom) (H : Disk) : Log × RecoverPc → Prop
  | (l, .readHead) => l.Coherent ∧ g.Holds l.disk H
  | (l, .installTrans tail) => l.Coherent ∧ g.Holds l.disk H ∧ l.lh = g.header l.disk ∧
      ∀ i (hi : i < l.lh.length), i < tail → l.disk l.lh[i] = H l.lh[i]
  | (l, .clearHead) => l.Coherent ∧ g.Holds l.disk H ∧ l.lh = [] ∧
      ∀ b, g.Home b → l.disk b = H b
  | (l, .done) => g.Holds l.disk H ∧ g.count l.disk = 0 ∧ ∀ b, g.Home b → l.disk b = H b

theorem RecoverInv.holds (h : RecoverInv g H c) : g.Holds c.1.disk H := by
  obtain ⟨l, pc⟩ := c
  cases pc with
  | readHead => exact h.2
  | installTrans tail => exact h.2.1
  | clearHead => exact h.2.1
  | done => exact h.1

/-- When the loop of `install_trans` ends, the home blocks hold the logical
contents: those in the header were copied, the others have their own. -/
theorem Geom.Holds.installed (h : g.Holds d H)
    (hi : ∀ i (hi : i < (g.header d).length), d (g.header d)[i] = H (g.header d)[i]) :
    ∀ b, g.Home b → d b = H b := by
  intro b hb
  by_cases hm : b ∈ g.header d
  · obtain ⟨i, hlt, rfl⟩ := List.getElem_of_mem hm
    exact hi i hlt
  · rw [← h.eq b hb, Geom.logical, if_neg hm]

theorem RecoverInv.step (h : RecoverInv g H c) : RecoverInv g H (recoverStep g c) := by
  obtain ⟨l, pc⟩ := c
  cases pc with
  | readHead =>
      obtain ⟨hco, hh⟩ := h
      have hlh : (l.readHead g).lh = g.header (l.readHead g).disk := by
        rw [Log.lh_readHead, hco]
        rfl
      exact ⟨hco, hh, hlh, fun i _ hi => absurd hi (Nat.not_lt_zero i)⟩
  | installTrans tail =>
      obtain ⟨hco, hh, hlh, hdone⟩ := h
      by_cases ht : tail < l.lh.length
      · rw [recoverStep, if_pos ht]
        have ht' : tail < (g.header l.disk).length := by rw [← hlh]; exact ht
        have hd : (l.installBody g true tail).disk =
            Function.update l.disk (g.header l.disk)[tail] (l.disk (g.start + tail + 1)) := by
          rw [Log.disk_installBody, getD_eq_getElem ht, hco]
          simp only [hlh]
        have hh' := hh.install ht'
        rw [← hd] at hh'
        have hlh' : (l.installBody g true tail).lh = g.header (l.installBody g true tail).disk := by
          rw [Log.lh_installBody, hd,
            Geom.header_update (hh.txn.start_ne (hh.txn.home _ (List.getElem_mem ht')))]
          exact hlh
        refine ⟨hco.bwrite _ _, hh', hlh', ?_⟩
        intro i hi hit
        have hi0 : i < (g.header l.disk).length := by
          rw [Log.lh_installBody, hlh] at hi
          exact hi
        have hne : (l.installBody g true tail).lh[i] = (g.header l.disk)[i] := by
          simp only [Log.lh_installBody, hlh]
        rw [hne, hd]
        by_cases hcase : i = tail
        · subst hcase
          rw [Function.update_self, ← hh.txn.logical_getElem ht']
          exact hh.eq _ (hh.txn.home _ (List.getElem_mem ht'))
        · rw [Function.update_of_ne]
          · have := hdone i (by rw [hlh]; exact hi0) (by omega)
            simpa only [hlh] using this
          · intro heq
            exact hcase ((List.Nodup.getElem_inj_iff hh.txn.nodup).mp heq)
      · rw [recoverStep, if_neg ht]
        refine ⟨hco, hh, rfl, hh.installed fun i hi => ?_⟩
        have := hdone i (by rw [hlh]; exact hi) (by rw [← hlh] at hi; omega)
        simpa only [hlh] using this
  | clearHead =>
      obtain ⟨_, hh, hlh, hd⟩ := h
      have hsz : 1 ≤ g.size := by have := hh.txn.fits; omega
      have hc := Geom.Holds.clear hsz hd (l.bread g.start)
      rw [recoverStep, Log.writeHead, hlh]
      exact ⟨Geom.Holds.of_nil hsz (Geom.header_of_count hc.1) hc.2, hc⟩
  | done => exact h

theorem RecoverInv.boot (h : g.Holds d H) :
    RecoverInv g H (Log.boot d, .readHead) := ⟨fun _ => rfl, h⟩

theorem RecoverInv.recoverFor (h : g.Holds d H) (k : Nat) : RecoverInv g H (recoverFor g d k) := by
  induction k with
  | zero => exact .boot h
  | succ k ih =>
      rw [Xv6.recoverFor, Function.iterate_succ_apply']
      exact ih.step

/-- Cutting recovery short any number of times keeps the logical contents. -/
theorem Geom.Holds.crashes (h : g.Holds d H) (hc : Crashes g d d') : g.Holds d' H := by
  induction hc with
  | refl => exact h
  | crash k _ ih => exact (RecoverInv.recoverFor ih k).holds

/-- A completed recovery erases the header and leaves the logical contents in
the home blocks. -/
theorem Geom.Holds.recovers (h : g.Holds d H) (hr : Recovers g d d') :
    g.count d' = 0 ∧ ∀ b, g.Home b → d' b = H b := by
  obtain ⟨k, hpc, rfl⟩ := hr
  have hinv := RecoverInv.recoverFor h k
  generalize hc : recoverFor g d k = c at hinv hpc
  obtain ⟨l, pc⟩ := c
  cases hpc
  exact hinv.2

/-- Recovery terminates: every round of `install_trans` moves `tail` towards
`log.lh.n`, which no round changes. -/
theorem recovers_exists (g : Geom) (d : Disk) : ∃ d', Recovers g d d' := by
  have hloop : ∀ (m : Nat) (l : Log) (tail : Nat), l.lh.length - tail = m →
      ∃ k, ((recoverStep g)^[k] (l, .installTrans tail)).2 = .done := by
    intro m
    induction m with
    | zero =>
        intro l tail hm
        refine ⟨2, ?_⟩
        have ht : ¬ tail < l.lh.length := by omega
        simp [recoverStep, ht]
    | succ m ih =>
        intro l tail hm
        have ht : tail < l.lh.length := by omega
        obtain ⟨k, hk⟩ := ih (l.installBody g true tail) (tail + 1)
          (by rw [Log.lh_installBody]; omega)
        refine ⟨k + 1, ?_⟩
        rw [Function.iterate_succ_apply, recoverStep, if_pos ht]
        exact hk
  obtain ⟨k, hk⟩ := hloop _ ((Log.boot d).readHead g) 0 rfl
  exact ⟨_, k + 1, hk, rfl⟩

/-! ## Commit -/

/-- The first `m` log slots hold the transaction's contents, on the disk and in
the cache. -/
def Log.Slots (g : Geom) (t : List Nat) (new : Disk) (m : Nat) (l : Log) : Prop :=
  ∀ i (hi : i < t.length), i < m →
    l.disk (g.start + i + 1) = new t[i] ∧ l.bread (g.start + i + 1) = new t[i]

/-- What holds at every point of `commit()` of the transaction `t`, where `old`
are the home blocks before it and `new` those after it. -/
def CommitInv (g : Geom) (t : List Nat) (old new : Disk) : Log × CommitPc → Prop
  | (l, .writeLog tail) => g.header l.disk = [] ∧ (∀ b, g.Home b → l.disk b = old b) ∧
      l.lh = t ∧ (∀ b ∈ t, l.bread b = new b) ∧ l.Slots g t new tail
  | (l, .writeHead) => g.header l.disk = [] ∧ (∀ b, g.Home b → l.disk b = old b) ∧
      l.lh = t ∧ (∀ b ∈ t, l.bread b = new b) ∧ l.Slots g t new t.length
  | (l, .installTrans tail) => g.Holds l.disk new ∧ g.header l.disk = t ∧
      l.lh = t ∧ l.Slots g t new t.length ∧
      ∀ i (hi : i < t.length), i < tail → l.disk t[i] = new t[i]
  | (l, .clearHead) => g.Holds l.disk new ∧ l.lh = [] ∧ ∀ b, g.Home b → l.disk b = new b
  | (l, .done) => g.header l.disk = [] ∧ l.lh = [] ∧ ∀ b, g.Home b → l.disk b = new b

section Commit

variable {t : List Nat} {old new : Disk} {l : Log} {m : Nat} {c : Log × CommitPc}

theorem Log.Slots.mono {k : Nat} (h : l.Slots g t new m) (hk : t.length ≤ m) :
    l.Slots g t new k := fun i hi _ => h i hi (by omega)

/-- A write outside the slots keeps them. -/
theorem Log.Slots.bwrite {b : Nat} (h : l.Slots g t new m) (v : Block)
    (hb : ∀ i < t.length, b ≠ g.start + i + 1) : (l.bwrite b v).Slots g t new m := by
  intro i hi him
  have hne := (hb i hi).symm
  rw [Log.bread_bwrite_of_ne l hne, Log.disk_bwrite, Function.update_of_ne hne]
  exact h i hi him

theorem CommitInv.entry (hhd : g.header l.disk = []) (hlh : l.lh = t)
    (hold : ∀ b, g.Home b → l.disk b = old b) (hnew : ∀ b ∈ t, l.bread b = new b)
    (hout : ∀ b, g.Home b → b ∉ t → new b = old b) :
    CommitInv g t old new (l, commitEntry l) := by
  by_cases hn : 0 < l.lh.length
  · rw [commitEntry, if_pos hn]
    exact ⟨hhd, hold, hlh, hnew, fun i _ h => absurd h (Nat.not_lt_zero i)⟩
  · rw [commitEntry, if_neg hn]
    have hnil : t = [] := by
      rw [← hlh]
      exact List.eq_nil_of_length_eq_zero (by omega)
    refine ⟨hhd, hlh.trans hnil, fun b hb => ?_⟩
    rw [hold b hb, hout b hb (by simp [hnil])]

theorem CommitInv.step (ht : Txn g t) (hout : ∀ b, g.Home b → b ∉ t → new b = old b)
    (h : CommitInv g t old new c) :
    CommitInv g t old new (commitStep g c) := by
  obtain ⟨l, pc⟩ := c
  have hsz : 1 ≤ g.size := by have := ht.fits; omega
  cases pc with
  | writeLog tail =>
      obtain ⟨hhd, hold, hlh, hnew, hslots⟩ := h
      by_cases hlt : tail < l.lh.length
      · rw [commitStep, if_pos hlt, Log.writeLogBody]
        have hlt' : tail < t.length := by rw [← hlh]; exact hlt
        have hsrc : l.bread (l.lh.getD tail 0) = new t[tail] := by
          rw [getD_eq_getElem hlt, ← hnew _ (List.getElem_mem hlt')]
          simp only [hlh]
        have hne : ∀ b, g.Home b → b ≠ g.start + tail + 1 := fun b hb => ht.slot_ne hlt' hb
        refine ⟨?_, fun b hb => ?_, hlh, fun b hb => ?_, fun i hi him => ?_⟩
        · rw [Log.disk_bwrite, Geom.header_update (by omega)]
          exact hhd
        · rw [Log.disk_bwrite, Function.update_of_ne (hne b hb)]
          exact hold b hb
        · rw [Log.bread_bwrite_of_ne l (hne b (ht.home b hb))]
          exact hnew b hb
        · by_cases hit : i = tail
          · subst hit
            rw [Log.bread_bwrite, Log.disk_bwrite, Function.update_self, hsrc]
            exact ⟨rfl, rfl⟩
          · have hslot : g.start + i + 1 ≠ g.start + tail + 1 := by omega
            rw [Log.bread_bwrite_of_ne l hslot, Log.disk_bwrite, Function.update_of_ne hslot]
            exact hslots i hi (by omega)
      · rw [commitStep, if_neg hlt]
        rw [hlh] at hlt
        exact ⟨hhd, hold, hlh, hnew, hslots.mono (by omega)⟩
  | writeHead =>
      obtain ⟨hhd, hold, hlh, hnew, hslots⟩ := h
      rw [commitStep, Log.writeHead, hlh]
      have hslots' := hslots.bwrite (putHeader (l.bread g.start) t) (b := g.start)
        (fun i _ => by omega)
      have hhd' : g.header (l.bwrite g.start (putHeader (l.bread g.start) t)).disk = t := by
        rw [Log.disk_bwrite, Geom.header_update_start]
        exact ht.getHeader_put _
      refine ⟨⟨by rw [hhd']; exact ht, fun b hb => ?_⟩, hhd', hlh, hslots',
        fun i _ hi => absurd hi (Nat.not_lt_zero i)⟩
      by_cases hm : b ∈ t
      · obtain ⟨i, hi, rfl⟩ := List.getElem_of_mem hm
        have hlog := Txn.logical_getElem (by rw [hhd']; exact ht) (d := _) (by rw [hhd']; exact hi)
        simp only [hhd'] at hlog
        rw [hlog]
        exact (hslots' i hi hi).1
      · rw [Geom.logical, hhd', if_neg hm, Log.disk_bwrite, Function.update_of_ne (ht.start_ne hb),
          hold b hb, hout b hb hm]
  | installTrans tail =>
      obtain ⟨hh, hhd, hlh, hslots, hdone⟩ := h
      by_cases hlt : tail < l.lh.length
      · rw [commitStep, if_pos hlt]
        have hlt' : tail < t.length := by rw [← hlh]; exact hlt
        have hhome : g.Home t[tail] := ht.home _ (List.getElem_mem hlt')
        have hdst : l.lh.getD tail 0 = t[tail] := by
          rw [getD_eq_getElem hlt]
          simp only [hlh]
        have hd : (l.installBody g false tail).disk =
            Function.update l.disk t[tail] (l.disk (g.start + tail + 1)) := by
          rw [Log.disk_installBody, hdst, (hslots tail hlt' hlt').1, (hslots tail hlt' hlt').2]
        have hh' := hh.install (i := tail) (by rw [hhd]; exact hlt')
        simp only [hhd] at hh'
        rw [← hd] at hh'
        refine ⟨hh', ?_, by rw [Log.lh_installBody]; exact hlh, fun i hi him => ?_,
          fun i hi him => ?_⟩
        · rw [hd, Geom.header_update (ht.start_ne hhome)]
          exact hhd
        · have hne : g.start + i + 1 ≠ t[tail] := (ht.slot_ne hi hhome).symm
          rw [Log.bread_installBody, hdst, if_neg hne, hd, Function.update_of_ne hne]
          exact hslots i hi him
        · rw [hd]
          by_cases hit : i = tail
          · subst hit
            rw [Function.update_self]
            exact (hslots i hi hi).1
          · rw [Function.update_of_ne]
            · exact hdone i hi (by omega)
            · intro heq
              exact hit ((List.Nodup.getElem_inj_iff ht.nodup).mp heq)
      · rw [commitStep, if_neg hlt]
        rw [hlh] at hlt
        refine ⟨hh, rfl, hh.installed fun i hi => ?_⟩
        have hi' : i < t.length := by rw [← hhd]; exact hi
        have := hdone i hi' (by omega)
        simpa only [hhd] using this
  | clearHead =>
      obtain ⟨_, hlh, hd⟩ := h
      have hc := Geom.Holds.clear hsz hd (l.bread g.start)
      rw [commitStep, Log.writeHead, hlh]
      exact ⟨Geom.header_of_count hc.1, hlh, hc.2⟩
  | done => exact h

/-- At every point of `commit()` the disk logically holds the old contents until
the first `write_head`, and the new ones from then on. -/
theorem CommitInv.holds_of_not_headWritten (ht : Txn g t) (h : CommitInv g t old new c)
    (hpc : ¬ c.2.HeadWritten) : g.Holds c.1.disk old := by
  have hsz : 1 ≤ g.size := by have := ht.fits; omega
  obtain ⟨l, pc⟩ := c
  cases pc with
  | writeLog tail => exact .of_nil hsz h.1 h.2.1
  | writeHead => exact .of_nil hsz h.1 h.2.1
  | installTrans tail => exact absurd trivial hpc
  | clearHead => exact absurd trivial hpc
  | done => exact absurd trivial hpc

theorem CommitInv.holds_of_headWritten (ht : Txn g t) (h : CommitInv g t old new c)
    (hpc : c.2.HeadWritten) : g.Holds c.1.disk new := by
  have hsz : 1 ≤ g.size := by have := ht.fits; omega
  obtain ⟨l, pc⟩ := c
  cases pc with
  | writeLog tail => exact hpc.elim
  | writeHead => exact hpc.elim
  | installTrans tail => exact h.1
  | clearHead => exact h.1
  | done => exact .of_nil hsz h.1 h.2.2

end Commit

/-! ## Crash atomicity -/

/-- `k` steps of `commit()`. -/
def commitFor (g : Geom) (l : Log) (k : Nat) : Log × CommitPc :=
  (commitStep g)^[k] (l, commitEntry l)

/-- The home blocks after the transaction: the cached contents for its blocks,
the disk's for all others. -/
def Log.after (l : Log) : Disk := fun b => if b ∈ l.lh then l.bread b else l.disk b

theorem commitFor_inv {l : Log} (hhd : g.header l.disk = []) (ht : Txn g l.lh) (k : Nat) :
    CommitInv g l.lh l.disk l.after (commitFor g l k) := by
  have hout : ∀ b, g.Home b → b ∉ l.lh → l.after b = l.disk b := by
    intro b _ hb
    rw [Log.after, if_neg hb]
  induction k with
  | zero =>
      refine CommitInv.entry hhd rfl (fun _ _ => rfl) (fun b hb => ?_) hout
      rw [Log.after, if_pos hb]
  | succ k ih =>
      rw [commitFor, Function.iterate_succ_apply']
      exact ih.step ht hout

/-- Crash after any number of steps of `commit()`, then crash any number of
times inside the recovery.  A recovery that completes leaves the home blocks as
they were before the transaction if the first `write_head` had not reached the
disk at the first crash, and with the whole transaction applied if it had.  The
header on the disk has `n = 0`, and recovery does complete when it is not
interrupted. -/
theorem crash_atomic (g : Geom) (l : Log) (hhd : g.header l.disk = []) (ht : Txn g l.lh)
    (k : Nat) {d : Disk} (hd : Crashes g (commitFor g l k).1.disk d) :
    (∃ d', Recovers g d d') ∧
    ∀ d', Recovers g d d' →
      g.count d' = 0 ∧
      (∀ b, g.Home b → b ∉ l.lh → d' b = l.disk b) ∧
      (¬ (commitFor g l k).2.HeadWritten → ∀ b, g.Home b → d' b = l.disk b) ∧
      ((commitFor g l k).2.HeadWritten → ∀ b ∈ l.lh, d' b = l.bread b) := by
  have hinv := commitFor_inv hhd ht k
  refine ⟨recovers_exists g d, fun d' hr => ?_⟩
  by_cases hpc : (commitFor g l k).2.HeadWritten
  · have hfin := ((hinv.holds_of_headWritten ht hpc).crashes hd).recovers hr
    refine ⟨hfin.1, fun b hb hm => ?_, fun hn => absurd hpc hn, fun _ b hb => ?_⟩
    · rw [hfin.2 b hb, Log.after, if_neg hm]
    · rw [hfin.2 b (ht.home b hb), Log.after, if_pos hb]
  · have hfin := ((hinv.holds_of_not_headWritten ht hpc).crashes hd).recovers hr
    exact ⟨hfin.1, fun b hb _ => hfin.2 b hb, fun _ => hfin.2, fun hw => absurd hw hpc⟩

/-- A log of 30 blocks on an empty disk with the single block 50 to commit. -/
def oneBlock : Log :=
  { Log.boot fun _ _ => 0 with cache := fun b => if b = 50 then some fun _ => 7 else none
                               lh := [50] }

theorem header_oneBlock : (Geom.mk 2 30).header oneBlock.disk = [] := by
  simp [Geom.header, getHeader, getCount, oneBlock, Log.boot, Bytes.Region.getInt, Bytes.Region.getLe,
    Bytes.Region.read, Bytes.Region.get, Bytes.ofLe, Bytes.toSigned, List.range_succ]

theorem txn_oneBlock : Txn ⟨2, 30⟩ oneBlock.lh where
  nodup := by simp [oneBlock]
  home := by simp [oneBlock, Geom.Home]
  lt := by simp [oneBlock]
  fits := by simp [oneBlock]
  entries := by simp [oneBlock, LOGSIZE, MAXOPBLOCKS]

/-- The transaction of `oneBlock`, cut off right after its header reached the
disk and then again after one step of the recovery. -/
theorem crash_atomic_oneBlock :
    (∃ d', Recovers ⟨2, 30⟩ (recoverFor ⟨2, 30⟩ (commitFor ⟨2, 30⟩ oneBlock 3).1.disk 1).1.disk d') ∧
    ∀ d', Recovers ⟨2, 30⟩ (recoverFor ⟨2, 30⟩ (commitFor ⟨2, 30⟩ oneBlock 3).1.disk 1).1.disk d' →
      (Geom.mk 2 30).count d' = 0 ∧ d' 50 = fun _ => 7 := by
  have h := crash_atomic ⟨2, 30⟩ oneBlock header_oneBlock txn_oneBlock 3 (.crash 1 .refl)
  refine ⟨h.1, fun d' hr => ?_⟩
  obtain ⟨hhd, -, -, hnew⟩ := h.2 d' hr
  exact ⟨hhd, hnew trivial 50 (by simp [oneBlock])⟩

end Xv6
