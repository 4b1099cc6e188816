import Xv6.Fs.ByteArray

/-!
# Open files

`fileread` and `filewrite` of `kernel/file.c` for an open file of type `FD_INODE`.  `filewrite` cuts
a write into transactions of at most `MAXOPBLOCKS` blocks.  So a run of such calls by one process
never stops the kernel, and an open file is an array of bytes with an offset that stays within it.
-/

namespace Xv6.Fs

open Bytes Hoare Census

/-! ## The calls -/

/-- `struct file` of type `FD_INODE`. -/
structure OpenFile where
  readable : Bool
  writable : Bool
  ip : Ptr
  off : Nat

/-- `begin_op`, which sleeps if the operation might exhaust log space. -/
def begin_op : FsM Unit := do
  let s ← get
  if LOGSIZE < s.lh.length + (s.ops.outstanding + 1) * MAXOPBLOCKS then
    panic .sleeps
  else
    set { s with ops.outstanding := s.ops.outstanding + 1 }

/-- `end_op`.  The last outstanding operation commits, which empties the log. -/
def end_op : FsM Unit := modify fun s =>
  if s.ops.outstanding - 1 = 0 then { s with ops := ⟨0, s.ops.commits ++ [s.lh]⟩, lh := [] }
  else { s with ops.outstanding := s.ops.outstanding - 1 }

section

variable (sb : Superblock)

def fileread (f : OpenFile) (dst : Dst) (n : Int) : FsM ((Int × List UInt8) × OpenFile) :=
  if !f.readable then
    return ((-1, []), f)
  else do
    ilock sb f.ip
    -- `readi` takes an unsigned `n`.
    let r ← readi sb f.ip dst f.off (n % 2 ^ 32).toNat
    iunlock f.ip
    return (r, if 0 < r.1 then { f with off := f.off + r.1.toNat } else f)

/-- `max`, the bytes of one transaction. -/
def maxWrite : Nat := (MAXOPBLOCKS - 1 - 1 - 2) / 2 * BSIZE

/-- One transaction of `filewrite`. -/
def writeChunk (ip : Ptr) (src : Src) (off n1 : Nat) : FsM Int := do
  begin_op
  ilock sb ip
  let r ← writei sb ip src off n1
  iunlock ip
  end_op
  return r

/-- The loop of `filewrite`.  Returns `i` and `f->off`. -/
def filewriteLoop (ip : Ptr) (src : Src) (n : Nat) : Nat → Nat → Nat → FsM (Nat × Nat)
  | 0, i, off => return (i, off)
  | fuel + 1, i, off =>
      if i < n then do
        let n1 := min (n - i) maxWrite
        let r ← writeChunk sb ip (fun k => src (i + k)) off n1
        let off := if 0 < r then off + r.toNat else off
        if r ≠ n1 then
          return (i, off)
        else
          filewriteLoop ip src n fuel (i + n1) off
      else
        return (i, off)

/-- An iteration that goes on writes a byte, so there are at most `n`. -/
def filewrite (f : OpenFile) (src : Src) (n : Int) : FsM (Int × OpenFile) :=
  if !f.writable then
    return (-1, f)
  else do
    let r ← filewriteLoop sb f.ip src n.toNat n.toNat 0 f.off
    return (if r.1 = n then n else -1, { f with off := r.2 })

end

variable {sb : Superblock} {s s' s'' : State} {ip : Ptr} {off n tot i : Nat} {f : File} {src : Src}
  {b : Bool} {Q : Unit → State → Prop} {E : Stop → Prop} {g : OpenFile}

/-! ## Between calls -/

/-- No transaction is under way, and the inode is in memory and not locked. -/
structure Ready (sb : Superblock) (s : State) (ip : Ptr) (f : File) : Prop extends Loaded s ip where
  inv : Inv sb s
  file : files sb s (s.itable ip).inum = some f
  unlocked : (s.itable ip).locked = false
  lh : s.lh = []
  outstanding : s.ops.outstanding = 0

/-- Only the file of `ip` may differ, by transactions of at most `MAXOPBLOCKS` blocks. -/
structure Touches (sb : Superblock) (s s' : State) (ip : Ptr) : Prop where
  inum : (s'.itable ip).inum = (s.itable ip).inum
  files : ∀ i, i ≠ (s.itable ip).inum → files sb s' i = files sb s i
  commits : ∃ new, s'.ops.commits = s.ops.commits ++ new ∧ ∀ l ∈ new, l.length ≤ MAXOPBLOCKS

theorem Touches.refl (sb : Superblock) (s : State) (ip : Ptr) : Touches sb s s ip :=
  ⟨rfl, fun _ _ => rfl, [], (List.append_nil _).symm, fun _ hl => absurd hl List.not_mem_nil⟩

theorem Touches.trans (h : Touches sb s s' ip) (h' : Touches sb s' s'' ip) :
    Touches sb s s'' ip := by
  refine ⟨h'.inum.trans h.inum, fun i hi => (h'.files i (h.inum ▸ hi)).trans (h.files i hi), ?_⟩
  obtain ⟨new, hnew, hle⟩ := h.commits
  obtain ⟨new', hnew', hle'⟩ := h'.commits
  refine ⟨new ++ new', by rw [hnew', hnew, List.append_assoc], fun l hl => ?_⟩
  exact (List.mem_append.mp hl).elim (hle l) (hle' l)

/-- Only the lock of `ip` differs, and the state of the log. -/
structure Relocks (s s' : State) (ip : Ptr) (b : Bool) : Prop where
  disk : s'.disk = s.disk
  itable : s'.itable = Function.update s.itable ip { s.itable ip with locked := b }

theorem Relocks.entry (h : Relocks s s' ip b) :
    s'.itable ip = { s.itable ip with locked := b } := by
  rw [h.itable, Function.update_self]

theorem Relocks.files (h : Relocks s s' ip b) : files sb s' = files sb s := by
  rw [Fs.files, h.disk, Fs.files]

theorem Relocks.loaded (h : Relocks s s' ip b) (hl : Loaded s ip) : Loaded s' ip := by
  constructor
  · rw [h.entry]
    exact hl.ref
  · rw [h.entry]
    exact hl.valid

theorem Relocks.other (h : Relocks s s' ip b) {e : Ptr} (he : e ≠ ip) :
    s'.itable e = s.itable e := by
  rw [h.itable, Function.update_of_ne he]

theorem Relocks.fields (h : Relocks s s' ip b) (e : Ptr) :
    (s'.itable e).inum = (s.itable e).inum ∧ (s'.itable e).dev = (s.itable e).dev ∧
      (s'.itable e).ref = (s.itable e).ref ∧ (s'.itable e).valid = (s.itable e).valid ∧
      (s'.itable e).node = (s.itable e).node := by
  by_cases he : e = ip
  · rw [he, h.entry]
    exact ⟨rfl, rfl, rfl, rfl, rfl⟩
  · rw [h.other he]
    exact ⟨rfl, rfl, rfl, rfl, rfl⟩

theorem Relocks.inv (h : Relocks s s' ip b) (hi : Inv sb s) (hl : Loaded s ip) : Inv sb s' := by
  refine ⟨h.disk ▸ hi.blocks, fun e _ hr hv => ?_, fun e e' hr hr' heq => ?_, fun e hr => ?_,
    fun e hr => ?_⟩
  · obtain ⟨h1, -, h3, h4, h5⟩ := h.fields e
    rw [h3] at hr
    rw [h4] at hv
    rw [h1, h5, h.disk]
    exact hi.table.synced e trivial hr hv
  · obtain ⟨h1, -, h3, -⟩ := h.fields e
    obtain ⟨h1', -, h3', -⟩ := h.fields e'
    rw [h3] at hr
    rw [h3'] at hr'
    rw [h1, h1'] at heq
    exact hi.table.unique e e' hr hr' heq
  · obtain ⟨-, h2, h3, -⟩ := h.fields e
    rw [h3] at hr
    rw [h2]
    exact hi.table.dev e hr
  · rw [(h.fields e).2.2.1] at hr
    -- `ip` has a reference
    rw [h.other fun he => hl.ref.ne' (he ▸ hr)]
    exact hi.table.idle e hr

/-! ## One transaction -/

/-- The file after `tot` bytes are written. -/
def File.write (f : File) (src : Src) (off tot : Nat) : File :=
  { f with data := splice f.data off (srcBytes src tot) }

theorem write_zero : f.write src off 0 = f := by
  rw [File.write]
  exact congrArg (fun d => { f with data := d }) (splice_nil f.data)

theorem length_write (hoff : off ≤ f.data.length) :
    (f.write src off tot).data.length = max f.data.length (off + tot) := by
  rw [File.write, length_splice hoff, length_srcBytes]

/-- Two writes, one after the other. -/
theorem write_write (hoff : off ≤ f.data.length) :
    (f.write src off i).write (fun k => src (i + k)) (off + i) tot = f.write src off (i + tot) := by
  have hadd : srcBytes src (i + tot) = srcBytes src i ++ srcBytes (fun k => src (i + k)) tot := by
    rw [srcBytes, List.range_add, List.map_append, List.map_map]
    rfl
  have hcut : splice (splice f.data off (srcBytes src i)) (off + (srcBytes src i).length)
      (srcBytes (fun k => src (i + k)) tot) = _ := splice_splice hoff
  rw [length_srcBytes] at hcut
  simp only [File.write, hcut, hadd]

/-- A write of `n` bytes ended after `tot`: the disk or the file is full if that is less. -/
structure WroteFile (sb : Superblock) (s s' : State) (ip : Ptr) (src : Src) (off n tot : Nat)
    (f : File) : Prop where
  le : tot ≤ n
  ready : Ready sb s' ip (f.write src off tot)
  touches : Touches sb s s' ip
  short : tot < n → freeBlocks sb s'.disk = 0 ∨ MAXFILE * BSIZE < off + n

/-- A transaction logs at most `MAXOPBLOCKS` blocks.  If it does not start at a block boundary its
first block is one of the file, for which no bitmap block is logged. -/
theorem writei_fits (h : Inv sb s) (hl : Loaded s ip)
    (hf : files sb s (s.itable ip).inum = some f) (hlh : s.lh = []) (hoff : off ≤ f.data.length)
    (hn : n ≤ maxWrite) :
    wp (writei sb ip src off n) (fun _ s' => s'.lh.length ≤ MAXOPBLOCKS)
      (fun st => st.why = .tooBig → logLimit sb < MAXOPBLOCKS) s := by
  obtain ⟨rfl, ht, -⟩ := h.view hl hf
  obtain ⟨hfilled, hsize⟩ := h.filled hl ht
  replace hoff : off ≤ (s.itable ip).node.size.toNat := by
    rwa [← length_bytes s.disk]
  have hw : Within [] 0 s.lh := by
    rw [hlh]
    exact ⟨List.nodup_nil, [], le_rfl, fun _ hb => .inl hb⟩
  have hind : indirectCost true 1 s ip ≤ 1 + 1 := indirectCost_le
  have hmax : maxWrite = 3 * 1024 := rfl
  have hM : MAXFILE * BSIZE = 268 * 1024 := rfl
  have hspan : span off n ≤ (off % 1024 + n - 1) / 1024 + 1 := by
    rw [span]
    split
    · exact Nat.zero_le _
    · exact le_rfl
  -- the block of the inode is one more
  suffices hnine : wp (writei sb ip src off n) (fun _ s' => Within [] (0 + 9 + 1) s'.lh)
      (Stops sb [] (0 + 9)) s from hnine.imp (fun _ _ hs => hs.length_le) fun st hst hwhy =>
    Nat.lt_succ_of_le ((hst.2 hwhy).trans hst.1.length_le)
  by_cases halign : off % 1024 = 0
  · have hcost : 0 < n → indirectCost true 1 s ip + (1 + 1) + (span off n - 1) * (1 + 1) ≤ 9 := by
      omega
    exact writei_logs hw (.inr le_rfl) Bool.noConfusion (.inl rfl) hcost (.inr (.inr le_rfl)) le_rfl
  · have haddr : off / BSIZE < MAXFILE ∧ blockAddr s.disk (s.itable ip).node (off / BSIZE) ≠ 0 := by
      have hB : off / BSIZE = off / 1024 := rfl
      refine ⟨?_, hfilled _ ?_⟩
      · show off / BSIZE < 268
        omega
      · show off / BSIZE * 1024 < _
        omega
    have hcost : 0 < n → indirectCost true 1 s ip + 1 + (span off n - 1) * (1 + 1) ≤ 9 := by
      omega
    exact writei_logs hw (.inr le_rfl) Bool.noConfusion (.inr ⟨rfl, haddr⟩) hcost
      (.inr (.inr le_rfl)) le_rfl

/-- `writei` in a transaction of its own. -/
theorem writei_alone (h : Inv sb s) (hl : Loaded s ip)
    (hf : files sb s (s.itable ip).inum = some f) (hlh : s.lh = [])
    (hout : s.ops.outstanding = 1) (hlog : MAXOPBLOCKS ≤ logLimit sb) (hoff : off ≤ f.data.length) (hpos : 0 < n)
    (hn : n ≤ maxWrite) (hsrc : ∀ k < n, (src k).isSome) :
    wp (writei sb ip src off n) (fun r s' => Inv sb s' ∧ NodeOnly s s' ip ∧
      s'.lh.length ≤ MAXOPBLOCKS ∧ ∃ tot ≤ n,
      files sb s' = Function.update (files sb s) (s.itable ip).inum
        (some (f.write src off tot)) ∧
      (tot < n → freeBlocks sb s'.disk = 0 ∨ MAXFILE * BSIZE < off + n) ∧
      (if 0 < r then off + r.toNat else off) = off + tot ∧ (r = n ↔ tot = n))
      (fun _ => False) s := by
  have hmax : maxWrite = 3 * 1024 := rfl
  have hM : MAXFILE * BSIZE = 268 * 1024 := rfl
  obtain ⟨hfile, ht, -⟩ := h.view hl hf
  have hlen : f.data.length ≤ MAXFILE * BSIZE := by
    rw [hfile]
    exact (length_bytes ..).trans_le (h.filled hl ht).2
  have hspec : wp (writei sb ip src off n) _ _ s := writei_spec (E := (·.why = .tooBig))
    (fun _ => rfl) (by omega) h hl hf ht (by omega) (by omega)
  refine (hspec.both (writei_fits h hl hf hlh hoff hn)).imp (fun r s' hr => ?_) fun st hst => ?_
  · obtain ⟨hr, hfits⟩ := hr
    split at hr
    · rename_i href
      obtain ⟨rfl, rfl⟩ := hr
      refine ⟨h, .refl .., hfits, 0, Nat.zero_le n, ?_, fun _ => .inr ?_, by simp, by omega⟩
      · rw [write_zero, ← hf, Function.update_eq_self]
      · rw [Refused] at href
        omega
    · obtain ⟨tot, rfl, hw⟩ := hr
      have hst := hw.stored hoff hsrc
      have htake : (srcBytes src n).take tot = srcBytes src tot := by
        rw [srcBytes, ← List.map_take, List.take_range, Nat.min_eq_left hw.le, srcBytes]
      refine ⟨hw.inv, hw.node, hfits, tot, hw.le, ?_, fun hlt => .inl (hst.full hlt), ?_, by simp⟩
      · rw [hst.files, htake, File.write]
      · split <;> omega
  · exact absurd (hst.2 hst.1) (Nat.not_lt.mpr hlog)

theorem wp_ilock (hl : Loaded s ip) (hk : (s.itable ip).locked = false) :
    wp (ilock sb ip) Q E s ↔ Q () (s.setInode ip { s.itable ip with locked := true }) := by
  rw [ilock, wp_bind, wp_inode, if_neg (Nat.not_lt.mpr hl.ref), if_neg (by simp [hk]),
    if_pos hl.valid, wp_setInode]

theorem wp_iunlock (hl : Loaded s ip) (hk : (s.itable ip).locked = true) :
    wp (iunlock ip) Q E s ↔ Q () (s.setInode ip { s.itable ip with locked := false }) := by
  have href := hl.ref
  rw [iunlock, wp_bind, wp_inode, if_neg (by simp [hk]; omega), wp_setInode]

theorem writeChunk_spec (h : Ready sb s ip f) (hlog : MAXOPBLOCKS ≤ logLimit sb)
    (hoff : off ≤ f.data.length) (hpos : 0 < n) (hn : n ≤ maxWrite)
    (hsrc : ∀ k < n, (src k).isSome) :
    wp (writeChunk sb ip src off n) (fun r s' => ∃ tot, WroteFile sb s s' ip src off n tot f ∧
      (if 0 < r then off + r.toNat else off) = off + tot ∧ (r = n ↔ tot = n))
      (fun _ => False) s := by
  have hfit : ¬ LOGSIZE < s.lh.length + (s.ops.outstanding + 1) * MAXOPBLOCKS := by
    rw [h.lh, h.outstanding]
    decide
  rw [writeChunk, wp_bind, begin_op, wp_bind, wp_get, if_neg hfit, wp_set, wp_bind,
    wp_ilock (s := { s with ops.outstanding := s.ops.outstanding + 1 }) ⟨h.ref, h.valid⟩ h.unlocked,
    wp_bind]
  generalize hs₁ : State.setInode _ _ _ = s₁
  have hre : Relocks s s₁ ip true := by
    subst hs₁
    exact ⟨rfl, rfl⟩
  have hlh : s₁.lh = [] := by
    rw [← hs₁, ← h.lh]
    rfl
  have hops : s₁.ops = ⟨1, s.ops.commits⟩ := by
    rw [← hs₁]
    show Ops.mk (s.ops.outstanding + 1) _ = _
    rw [h.outstanding]
  have hinum : (s₁.itable ip).inum = (s.itable ip).inum := by rw [hre.entry]
  have hl₁ := hre.loaded h.toLoaded
  have hf₁ : files sb s₁ (s₁.itable ip).inum = some f := by rw [hre.files, hinum, h.file]
  refine (writei_alone (hre.inv h.inv h.toLoaded) hl₁ hf₁ hlh (by rw [hops]) hlog hoff hpos hn hsrc).mono
    fun r s₂ hr => ?_
  obtain ⟨hi₂, hnode, hfits, tot, hle, hfiles, hshort, hoff', hret⟩ := hr
  obtain ⟨hn₂, -, -, -, hk₂⟩ := hnode.fields ip
  have hl₂ := hnode.loaded hl₁
  rw [wp_bind, wp_iunlock hl₂ (by rw [hk₂, hre.entry]), wp_bind, end_op, wp_modify, wp_pure]
  have hend : s₂.ops.outstanding - 1 = 0 := congrArg (·.outstanding - 1) (hnode.ops.trans hops)
  rw [if_pos (by exact hend)]
  generalize hs₃ : State.mk _ _ _ _ = s₃
  have hre₃ : Relocks s₂ s₃ ip false := by
    subst hs₃
    exact ⟨rfl, rfl⟩
  have hinum₃ : (s₃.itable ip).inum = (s.itable ip).inum := by rw [hre₃.entry, ← hinum, ← hn₂]
  rw [hre.files, hinum] at hfiles
  replace hfiles := hre₃.files.trans hfiles
  refine ⟨tot, ⟨hle, ⟨hre₃.loaded hl₂, hre₃.inv hi₂ hl₂, ?_, ?_, ?_, ?_⟩, ⟨hinum₃, ?_,
    [s₂.lh], ?_, ?_⟩, ?_⟩, hoff', hret⟩
  · rw [hinum₃, hfiles, Function.update_self]
  · rw [hre₃.entry]
  · rw [← hs₃]
  · rw [← hs₃]
  · intro i hi
    rw [hfiles, Function.update_of_ne hi]
  · rw [← hs₃]
    exact congrArg (·.commits ++ [s₂.lh]) (hnode.ops.trans hops)
  · intro l hl
    rw [List.mem_singleton.mp hl]
    exact hfits
  · rw [hre₃.disk]
    exact hshort

/-! ## The two calls -/

theorem filewriteLoop_spec {N : Nat} (h : Ready sb s ip (f.write src off i))
    (hlog : MAXOPBLOCKS ≤ logLimit sb) (hoff : off ≤ f.data.length) (hi : i ≤ N) (hfuel : N - i ≤ n)
    (hsrc : ∀ k < N, (src k).isSome) :
    wp (filewriteLoop sb ip src N n i (off + i)) (fun r s' => ∃ tot,
      WroteFile sb s s' ip src off N tot f ∧ r.2 = off + tot ∧ (r.1 = N ↔ tot = N))
      (fun _ => False) s := by
  -- Induction on the fuel: a transaction that is written whole leaves a file to go on with.
  induction n generalizing s i with
  | zero => exact ⟨i, ⟨hi, h, .refl .., by omega⟩, rfl, Iff.rfl⟩
  | succ n ih =>
      rw [filewriteLoop]
      split
      · rename_i hlt
        have hpos : 0 < maxWrite := Nat.succ_pos _
        have hlen : off + i ≤ (f.write src off i).data.length := by
          rw [length_write hoff]
          exact le_max_right ..
        generalize hn1 : min (N - i) maxWrite = n1
        rw [wp_bind]
        refine (writeChunk_spec h hlog hlen (by omega) (by omega) fun k hk =>
          hsrc (i + k) (by omega)).mono fun r s₁ hr => ?_
        obtain ⟨tot, hw, hoff', hret⟩ := hr
        have hle := hw.le
        have hready := hw.ready
        rw [write_write hoff] at hready
        rw [Nat.add_assoc off i tot] at hoff'
        simp only [hoff']
        split
        · rename_i hne
          have htot : tot < n1 := lt_of_le_of_ne hle fun he => hne (hret.mpr he)
          refine ⟨i + tot, ⟨by omega, hready, hw.touches, fun _ => ?_⟩, rfl, by omega⟩
          exact (hw.short htot).imp_right fun hbig => by omega
        · rename_i heq
          obtain rfl : tot = n1 := hret.mp (not_not.mp heq)
          refine (ih hready (by omega) (by omega)).mono fun r' s₂ hr' => ?_
          obtain ⟨tot', hw', hr2, hr1⟩ := hr'
          exact ⟨tot', ⟨hw'.le, hw'.ready, hw.touches.trans hw'.touches, hw'.short⟩, hr2, hr1⟩
      · exact ⟨i, ⟨hi, h, .refl .., by omega⟩, rfl, Iff.rfl⟩

theorem filewrite_spec (h : Ready sb s g.ip f) (hlog : MAXOPBLOCKS ≤ logLimit sb)
    (hoff : g.off ≤ f.data.length) (hw : g.writable) (hsrc : ∀ k < n, (src k).isSome) :
    wp (filewrite sb g src n) (fun r s' => ∃ tot, WroteFile sb s s' g.ip src g.off n tot f ∧
      r = (if tot = n then (n : Int) else -1, { g with off := g.off + tot }))
      (fun _ => False) s := by
  have h₀ : Ready sb s g.ip (f.write src g.off 0) := by
    rw [write_zero]
    exact h
  rw [filewrite, if_neg (by simp [hw]), wp_bind]
  refine (filewriteLoop_spec h₀ hlog hoff (Nat.zero_le _) le_rfl hsrc).mono fun r s' hr => ?_
  obtain ⟨tot, hwrote, hr2, hr1⟩ := hr
  refine ⟨tot, hwrote, ?_⟩
  simp only [Nat.cast_inj, hr1, hr2]

/-- `fileread` leaves the state as it was. -/
theorem fileread_spec {dst : Dst} {w : List UInt8} (h : Ready sb s g.ip f)
    (hoff : g.off ≤ f.data.length) (hr : g.readable) (hn : n < 2 ^ 31)
    (hdst : ∀ k < n, dst k = true) (hw : w = (f.data.drop g.off).take n) :
    wp (fileread sb g dst n) (fun r s' => s' = s ∧
      r = (((w.length : Int), w), { g with off := g.off + w.length })) (fun _ => False) s := by
  obtain ⟨hfile, ht, -⟩ := h.inv.view h.toLoaded h.file
  obtain ⟨hfilled, hsize⟩ := h.inv.filled h.toLoaded ht
  have hM : MAXFILE * BSIZE = 268 * 1024 := rfl
  have hlen : f.data.length = (s.itable g.ip).node.size.toNat := by
    rw [hfile]
    exact length_bytes ..
  have hn32 : ((n : Int) % 2 ^ 32).toNat = n := by omega
  rw [fileread, if_neg (by simp [hr]), wp_bind, wp_ilock h.toLoaded h.unlocked, wp_bind, hn32]
  generalize hs₁ : State.setInode _ _ _ = s₁
  have hre : Relocks s s₁ g.ip true := by
    subst hs₁
    exact ⟨rfl, rfl⟩
  have hnode : (s₁.itable g.ip).node = (s.itable g.ip).node := by rw [hre.entry]
  rw [← hnode, ← hre.disk] at hfilled
  refine (readi_spec hfilled (hnode ▸ hsize) (by omega) (by omega)).mono fun r s₂ hr => ?_
  obtain ⟨rfl, hread⟩ := hr
  obtain ⟨hbytes, hcount⟩ := hread hdst
  have hdata : bytes s₂.disk (s₂.itable g.ip).node = f.data := by
    rw [hnode, hre.disk, hfile]
    rfl
  rw [hdata, readBytes, if_pos (by omega), ← hw] at hbytes
  rw [wp_bind, wp_iunlock (hre.loaded h.toLoaded) (by rw [hre.entry]), wp_pure]
  refine ⟨?_, ?_⟩
  · have hself : { s.itable g.ip with locked := false } = s.itable g.ip := by rw [← h.unlocked]
    rw [hre.entry, ← hs₁, State.setInode, State.setInode, Function.update_idem, hself,
      Function.update_eq_self]
  · rw [← hbytes]
    refine Prod.ext (Prod.ext hcount rfl) ?_
    split
    · simp only [hcount, Int.toNat_natCast]
    · rw [show r.2.length = 0 by omega]
      rfl

/-! ## Runs of calls -/

inductive FileCall where
  | read (dst : Dst) (n : Nat)
  | write (src : Src) (n : Nat)

/-- The buffer of a call is mapped, and its size is an `int`. -/
def FileCall.Mapped : FileCall → Prop
  | .read dst n => n < 2 ^ 31 ∧ ∀ k < n, dst k = true
  | .write src n => n < 2 ^ 31 ∧ ∀ k < n, (src k).isSome

/-- What a call returns, and the bytes it copies out. -/
abbrev Reply := Int × List UInt8

def FileCall.run (sb : Superblock) (g : OpenFile) : FileCall → FsM (Reply × OpenFile)
  | .read dst n => fileread sb g dst n
  | .write src n => do
      let r ← filewrite sb g src n
      return ((r.1, []), r.2)

/-- The calls of one process, with their replies and the states after them. -/
def runCalls (sb : Superblock) : OpenFile → List FileCall → FsM (List (Reply × State) × OpenFile)
  | g, [] => return ([], g)
  | g, c :: cs => do
      let r ← c.run sb g
      let s ← get
      let rs ← runCalls sb r.2 cs
      return ((r.1, s) :: rs.1, rs.2)

/-- What a call does to an array of bytes with an offset, where `free` blocks are left after it.  The
file was opened for reading if `rd` and for writing if `wr`. -/
inductive Called (rd wr : Bool) (free : Nat) :
    FileCall → List UInt8 × Nat → Reply → List UInt8 × Nat → Prop where
  | read {dst : Dst} {data : List UInt8} {off n : Nat} (hr : rd = true) :
      Called rd wr free (.read dst n) (data, off)
        (((data.drop off).take n).length, (data.drop off).take n)
        (data, off + ((data.drop off).take n).length)
  | write {src : Src} {data : List UInt8} {off n tot : Nat} (hw : wr = true) (hle : tot ≤ n)
      (hshort : tot < n → free = 0 ∨ MAXFILE * BSIZE < off + n) :
      Called rd wr free (.write src n) (data, off) (if tot = n then (n : Int) else -1, [])
        (splice data off (srcBytes src tot), off + tot)
  | unreadable {dst : Dst} {n : Nat} {a : List UInt8 × Nat} (hr : rd = false) :
      Called rd wr free (.read dst n) a (-1, []) a
  | unwritable {src : Src} {n : Nat} {a : List UInt8 × Nat} (hw : wr = false) :
      Called rd wr free (.write src n) a (-1, []) a

/-- The same of a run. -/
inductive Calls (sb : Superblock) (rd wr : Bool) :
    List FileCall → List UInt8 × Nat → List (Reply × State) → List UInt8 × Nat → Prop where
  | nil {a : List UInt8 × Nat} : Calls sb rd wr [] a [] a
  | cons {c : FileCall} {cs : List FileCall} {a a' a'' : List UInt8 × Nat} {r : Reply × State}
      {rs : List (Reply × State)} : Called rd wr (freeBlocks sb r.2.disk) c a r.1 a' →
      Calls sb rd wr cs a' rs a'' → Calls sb rd wr (c :: cs) a (r :: rs) a''

/-- An open file that is at `off` of an array of bytes. -/
structure At (sb : Superblock) (s : State) (g : OpenFile) (f : File) : Prop extends
    Ready sb s g.ip f where
  off : g.off ≤ f.data.length

theorem FileCall.run_spec {c : FileCall} (hlog : MAXOPBLOCKS ≤ logLimit sb) (h : At sb s g f)
    (hc : c.Mapped) :
    wp (c.run sb g) (fun r s' => ∃ data off, r.2 = { g with off := off } ∧
      At sb s' { g with off := off } { f with data := data } ∧ Touches sb s s' g.ip ∧
      Called g.readable g.writable (freeBlocks sb s'.disk) c (f.data, g.off) r.1 (data, off))
      (fun _ => False) s := by
  cases c with
  | read dst n =>
      by_cases hr : g.readable
      · refine (fileread_spec h.toReady h.off hr hc.1 hc.2 rfl).mono fun r s' hs => ?_
        obtain ⟨rfl, rfl⟩ := hs
        refine ⟨f.data, _, rfl, ⟨h.toReady, ?_⟩, .refl .., .read hr⟩
        have := h.off
        simp only [List.length_take, List.length_drop]
        omega
      · rw [FileCall.run, fileread, if_pos (by simp [hr]), wp_pure]
        exact ⟨f.data, g.off, rfl, h, .refl .., .unreadable (Bool.eq_false_of_not_eq_true hr)⟩
  | write src n =>
      rw [FileCall.run, wp_bind]
      by_cases hw : g.writable
      · refine (filewrite_spec h.toReady hlog h.off hw hc.2).mono fun r s' hs => ?_
        obtain ⟨tot, hwrote, rfl⟩ := hs
        refine ⟨_, _, rfl, ⟨hwrote.ready, ?_⟩, hwrote.touches, .write hw hwrote.le hwrote.short⟩
        exact (length_write h.off).symm ▸ le_max_right ..
      · rw [filewrite, if_pos (by simp [hw]), wp_pure]
        exact ⟨f.data, g.off, rfl, h, .refl .., .unwritable (Bool.eq_false_of_not_eq_true hw)⟩

theorem runCalls_spec {cs : List FileCall} (hlog : MAXOPBLOCKS ≤ logLimit sb) (h : At sb s g f)
    (hcs : ∀ c ∈ cs, c.Mapped) :
    wp (runCalls sb g cs) (fun r s' => ∃ data, At sb s' r.2 { f with data := data } ∧
      Touches sb s s' g.ip ∧
      Calls sb g.readable g.writable cs (f.data, g.off) r.1 (data, r.2.off))
      (fun _ => False) s := by
  induction cs generalizing s g f with
  | nil => exact ⟨f.data, h, .refl .., .nil⟩
  | cons c cs ih =>
      rw [runCalls, wp_bind]
      refine (FileCall.run_spec hlog h (hcs c (List.mem_cons_self ..))).mono fun r s₁ hr => ?_
      obtain ⟨data, off, hg, hat, htouch, hcalled⟩ := hr
      rw [wp_bind, wp_get, wp_bind, hg]
      refine (ih hat fun c' hc' => hcs c' (List.mem_cons_of_mem _ hc')).mono fun rs s₂ hrs => ?_
      obtain ⟨data', hat', htouch', hcalls⟩ := hrs
      exact ⟨data', hat', htouch.trans htouch', .cons hcalled hcalls⟩

/-- A run of calls stops nowhere, and is one of an array of bytes with an offset within it.  Its
transactions have at most `MAXOPBLOCKS` blocks. -/
theorem descriptor_refines {g : OpenFile} {cs : List FileCall} (hlog : MAXOPBLOCKS ≤ logLimit sb)
    (h : At sb s g f) (hcs : ∀ c ∈ cs, c.Mapped) :
    ∃ rs g' s' data, runCalls sb g cs s = .ok ((rs, g'), s') ∧
      At sb s' g' { f with data := data } ∧ Touches sb s s' g.ip ∧
      Calls sb g.readable g.writable cs (f.data, g.off) rs (data, g'.off) := by
  obtain ⟨r, s', hrun, data, hdata⟩ := (runCalls_spec hlog h hcs).returns
  exact ⟨r.1, r.2, s', data, hrun, hdata⟩

/-- Between calls, on the image with an empty file. -/
def idleImage : State := { newImage Mkfs.sb T_FILE with ops := ⟨0, []⟩ }

def emptyFile : File := ⟨T_FILE, 0, 0, 1, []⟩

def openEmpty : OpenFile := ⟨true, true, rootPtr, 0⟩

def writeFour : List FileCall := [.write sevens (4 * BSIZE), .read inKernel 5]

/-- Four blocks are written to a new file, in two transactions.  Then the offset is at its end. -/
theorem descriptor_refines_newFile : ∃ rs g' s' data,
    runCalls Mkfs.sb openEmpty writeFour idleImage = .ok ((rs, g'), s') ∧
    At Mkfs.sb s' g' { emptyFile with data := data } ∧
    Touches Mkfs.sb idleImage s' rootPtr ∧
    Calls Mkfs.sb true true writeFour ([], 0) rs (data, g'.off) ∧
    rs.map Prod.fst = [(4096, []), (0, [])] ∧ g'.off = 4096 ∧
    s'.ops.commits.map List.length = [5, 3] := by
  have hre : Relocks (newImage Mkfs.sb T_FILE) idleImage rootPtr false :=
    ⟨rfl, (Function.update_eq_self rootPtr (newImage Mkfs.sb T_FILE).itable).symm⟩
  have hl := loaded_newImage Mkfs.sb T_FILE
  have hat : At Mkfs.sb idleImage openEmpty emptyFile :=
    ⟨⟨hre.loaded hl, hre.inv (inv_newImage (by decide)) hl, file_newImage (by decide) (by decide),
      rfl, rfl, rfl⟩, le_rfl⟩
  have hcs : ∀ c ∈ writeFour, c.Mapped := by
    intro c hc
    rcases List.mem_cons.mp hc with rfl | hc
    · exact ⟨by decide +kernel, fun _ _ => rfl⟩
    · rw [List.mem_singleton.mp hc]
      exact ⟨by decide +kernel, fun _ _ => rfl⟩
  generalize hidle : idleImage = idle at hat ⊢
  have hrun : wp (runCalls Mkfs.sb openEmpty writeFour) (fun r s' =>
      r.1.map Prod.fst = [(4096, []), (0, [])] ∧ r.2.off = 4096 ∧
      s'.ops.commits.map List.length = [5, 3]) (fun _ => False) idle := by
    rw [← hidle]
    decide +kernel
  obtain ⟨rs, g', s', data, hok, hat', htouch, hcalls⟩ := descriptor_refines (by decide +kernel) hat hcs
  exact ⟨rs, g', s', data, hok, hat', htouch, hcalls, (wp_ok hok).mp hrun⟩

end Xv6.Fs
