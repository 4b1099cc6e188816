import Xv6.Fs.Footprint
import Xv6.Fs.Image

/-!
# Files as arrays of bytes

`readi`, and `writei` in a transaction.  `writei` stores bytes in the file of an inode and nowhere
else, and stops early only if the disk is full.  It logs every block it writes, so a write of many
blocks is stopped by the log: the transaction is too big.  That happens only when the log is full of
the blocks it had, those of the range, and what is needed to allocate them.
-/

namespace Xv6.Fs

open Bytes Hoare Census

variable {sb : Superblock} {s s' : State} {ip : Ptr} {off n tot : Nat} {f : File} {src : Src}
  {dst : Dst}

/-- Between `begin_op` and `end_op`. -/
structure InOp (s : State) : Prop where
  outstanding : 0 < s.ops.outstanding
  /-- A block is logged once. -/
  nodup : s.lh.Nodup

theorem InOp.within (h : InOp s) : Within s.lh 0 s.lh := ⟨h.nodup, [], le_rfl, fun _ hb => .inl hb⟩

/-- The bytes of a file after the bytes `w` are written at `off`. -/
theorem length_splice_take {data w : List UInt8} (hoff : off ≤ data.length) (hw : w.length = tot) :
    (splice data off w).take (max data.length (off + tot)) = splice data off w ∧
      (splice data off w).length = max data.length (off + tot) := by
  have hlen : (splice data off w).length = max data.length (off + tot) := by
    rw [length_splice hoff, hw]
  exact ⟨List.take_of_length_le hlen.le, hlen⟩

/-- What is left of the file system by a write that counts `tot` bytes. -/
structure Stored (sb : Superblock) (s s' : State) (ip : Ptr) (src : Src) (off n tot : Nat)
    (f : File) : Prop where
  le : tot ≤ n
  full : tot < n → freeBlocks sb s'.disk = 0
  inv : Inv sb s'
  node : NodeOnly s s' ip
  files : files sb s' = Function.update (files sb s) (s.itable ip).inum
    (some { f with data := splice f.data off ((srcBytes src n).take tot) })
  size : (splice f.data off ((srcBytes src n).take tot)).length = max f.data.length (off + tot)

theorem Wrotei.stored (h : Wrotei sb s s' ip src off n tot f) (hoff : off ≤ f.data.length)
    (hsrc : ∀ k < n, (src k).isSome) :
    Stored sb s s' ip src off n tot f := by
  obtain ⟨w, hfiles, hall⟩ := h.data
  obtain ⟨rfl, hfull⟩ := hall hsrc
  have hlen : ((srcBytes src n).take tot).length = tot := by
    rw [List.length_take, length_srcBytes]
    exact Nat.min_eq_left h.le
  obtain ⟨htake, hsize⟩ := length_splice_take hoff hlen
  rw [htake] at hfiles
  exact ⟨h.le, hfull, h.inv, h.node, hfiles, hsize⟩

theorem Stored.file (h : Stored sb s s' ip src off n tot f) :
    Fs.files sb s' (s'.itable ip).inum =
      some { f with data := splice f.data off ((srcBytes src n).take tot) } := by
  rw [(h.node.fields ip).1, h.files, Function.update_self]

/-! ## What is logged -/

/-- The last block of the range has no address yet. -/
def Grows (len off n : Nat) : Prop := (len + BSIZE - 1) / BSIZE * BSIZE < off + n

instance (len off n : Nat) : Decidable (Grows len off n) := inferInstanceAs (Decidable (_ < _))

/-- The log may have the blocks of the range beside `lh`, and if the file grows the bitmap blocks and
the indirect block. -/
def LogsWrite (sb : Superblock) (lh : List Nat) (len off n : Nat) (l : List Nat) : Prop :=
  if Grows len off n then
    Within (lh ++ bitmapBlocks sb) (span off n + if NDIRECT * BSIZE < off + n then 1 else 0) l
  else Within lh (span off n) l

theorem Inv.addressed (h : Inv sb s) (hl : Loaded s ip) (ht : (s.itable ip).node.type ≠ 0)
    (hg : ¬ Grows (s.itable ip).node.size.toNat off n) :
    Addressed s.disk (s.itable ip).node (off + n) := by
  obtain ⟨hlt, hnode⟩ := h.node hl
  obtain ⟨hfilled, hsize⟩ := h.filled hl ht
  intro bn hbn
  have hk : bn * BSIZE < (s.itable ip).node.size.toNat := by
    rw [Grows] at hg
    rw [BSIZE_eq] at hg hbn ⊢
    omega
  have hM : bn < MAXFILE := Nat.lt_of_mul_lt_mul_right (Nat.lt_of_lt_of_le hk hsize)
  have h0 := hfilled bn hk
  refine ⟨hM, h0, fun he => blockSlot_ne_indirect bn ?_⟩
  rw [hnode] at ht h0 he
  rw [← slotAddr_indirect s.disk] at he
  exact (h.blocks.slot_inj hlt ht (blockSlot_lt hM) hlt ht NDIRECT_lt h0 he).2

theorem writei_room (h : Inv sb s) (hl : Loaded s ip) (ht : (s.itable ip).node.type ≠ 0)
    (hop : InOp s) : wp (writei sb ip src off n) (fun _ _ => True) (fun st =>
      LogsWrite sb s.lh (s.itable ip).node.size.toNat off n st.lh ∧
        (st.why = .tooBig → logLimit sb ≤ st.lh.length)) s := by
  by_cases hg : Grows (s.itable ip).node.size.toNat off n
  · have hin : Within (s.lh ++ bitmapBlocks sb) 0 s.lh :=
      ⟨hop.nodup, [], le_rfl, fun _ hb => .inl (List.mem_append_left _ hb)⟩
    have hβ : BitmapCost sb (s.lh ++ bitmapBlocks sb) 0 :=
      bitmapCost_zero fun _ hb => List.mem_append_right _ hb
    have hcost : 0 < n → indirectCost (decide (NDIRECT * BSIZE < off + n)) 0 s ip + (0 + 1) +
        (span off n - 1) * (0 + 1) ≤ span off n + if NDIRECT * BSIZE < off + n then 1 else 0 := by
      intro hpos
      have hle : indirectCost (decide (NDIRECT * BSIZE < off + n)) 0 s ip ≤ _ := indirectCost_le
      have hspan : 0 < span off n := by
        rw [span, if_neg (by omega)]
        exact Nat.succ_pos _
      simp only [decide_eq_true_eq, Nat.zero_add] at hle
      omega
    refine (writei_logs (d := 1) hin hβ (fun hi => by simpa using hi) (.inl rfl) hcost
      (.inr (.inr le_rfl)) le_rfl).imp (fun _ _ _ => trivial) fun st hst => ?_
    rw [Nat.zero_add] at hst
    rw [LogsWrite, if_pos hg]
    exact hst
  · refine (writei_overwrites (d := 1) hop.within (h.addressed hl ht hg) (.inr (.inr le_rfl))
      le_rfl).imp (fun _ _ _ => trivial) fun st hst => ?_
    rw [Nat.zero_add] at hst
    rw [LogsWrite, if_neg hg]
    exact hst

/-! ## The array -/

/-- `readi` and `writei` are those of an array of bytes, unless a write finds the log full. -/
theorem byte_array (h : Inv sb s) (hl : Loaded s ip)
    (hf : files sb s (s.itable ip).inum = some f) (hoff : off < 2 ^ 32) (hn : n < 2 ^ 32) :
    (InOp s → (∀ k < n, (src k).isSome) → wp (writei sb ip src off n)
      (fun r s' => if Refused f.data.length off n then r = -1 ∧ s' = s
        else ∃ tot : Nat, r = tot ∧ Stored sb s s' ip src off n tot f)
      (fun st => st.why = .tooBig ∧ ¬ Refused f.data.length off n ∧
        logLimit sb ≤ st.lh.length ∧ LogsWrite sb s.lh f.data.length off n st.lh) s) ∧
    ((∀ k < n, dst k = true) → wp (readi sb ip dst off n)
      (fun r s' => s' = s ∧ r.2 = readBytes f.data off n ∧ r.1 = r.2.length)
      (fun _ => False) s) := by
  obtain ⟨hfile, ht, -⟩ := h.view hl hf
  have hlen : f.data.length = (s.itable ip).node.size.toNat := by
    rw [hfile]
    exact length_bytes ..
  refine ⟨fun hop hsrc => ?_, fun hdst => ?_⟩
  · by_cases href : Refused f.data.length off n
    · rw [wp_writei_of_refused hoff hn (hlen ▸ href), if_pos href]
      exact ⟨rfl, rfl⟩
    · simp only [if_neg href]
      refine ((writei_spec (E := (·.why = .tooBig)) (fun _ => rfl) hop.outstanding h hl hf ht hoff
        hn).both (writei_room h hl ht hop)).imp (fun r s' hr => ?_) fun st hst => ?_
      · obtain ⟨hr, -⟩ := hr
        rw [if_neg href] at hr
        obtain ⟨tot, hr, hw⟩ := hr
        exact ⟨tot, hr, hw.stored (by rw [Refused] at href; omega) hsrc⟩
      · obtain ⟨hwhy, hroom, hlimit⟩ := hst
        rw [hlen]
        exact ⟨hwhy, hlen ▸ href, hlimit hwhy, hroom⟩
  · obtain ⟨hfilled, hsize⟩ := h.filled hl ht
    refine (readi_spec hfilled hsize hoff hn).mono fun r s' hr => ⟨hr.1, ?_⟩
    rw [hfile]
    exact hr.2 hdst

def sevens : Src := fun _ => some 7

/-- 26 blocks are written to a new file, all that fit the log with the bitmap block, the indirect
block and the block of the inode.  Three bytes are read back. -/
theorem byte_array_newFile : ∃ s',
    writei Mkfs.sb rootPtr sevens 0 (26 * BSIZE) (newImage Mkfs.sb T_FILE) =
      .ok (26 * BSIZE, s') ∧
    Stored Mkfs.sb (newImage Mkfs.sb T_FILE) s' rootPtr sevens 0 (26 * BSIZE) (26 * BSIZE)
      ⟨T_FILE, 0, 0, 1, []⟩ ∧
    readi Mkfs.sb rootPtr inKernel BSIZE 3 s' = .ok ((3, [7, 7, 7]), s') := by
  have hi : Inv Mkfs.sb (newImage Mkfs.sb T_FILE) := inv_newImage (by decide)
  have hl := loaded_newImage Mkfs.sb T_FILE
  have hf : files Mkfs.sb (newImage Mkfs.sb T_FILE) ((newImage Mkfs.sb T_FILE).itable rootPtr).inum =
      some ⟨T_FILE, 0, 0, 1, []⟩ := file_newImage (by decide) (by decide)
  have hop : InOp (newImage Mkfs.sb T_FILE) := ⟨Nat.one_pos, List.nodup_nil⟩
  have hlh : (newImage Mkfs.sb T_FILE).lh = [] := rfl
  generalize himg : newImage Mkfs.sb T_FILE = img at hi hl hf hop hlh ⊢
  have hcount : wp (writei Mkfs.sb rootPtr sevens 0 (26 * BSIZE)) (fun r _ => r = 26 * BSIZE)
      (fun _ => True) img := by
    rw [← himg]
    decide +kernel
  have hwrite := (byte_array hi hl hf (show 0 < 2 ^ 32 by decide)
    (show 26 * BSIZE < 2 ^ 32 by decide) : _ ∧ ((∀ k < _, inKernel k = true) → _)).1 hop
    fun k _ => show (sevens k).isSome from rfl
  have hroom : ∀ l, LogsWrite Mkfs.sb [] 0 0 (26 * BSIZE) l → l.length ≤ 28 := fun l h => by
    rw [LogsWrite, if_pos (by decide)] at h
    exact h.length_le
  have hall := (hwrite.both hcount).imp (fun _ _ hr => hr) fun st hst => show False by
    have hle := hroom st.lh (hlh ▸ hst.1.2.2.2)
    have hge : 29 ≤ st.lh.length := hst.1.2.2.1
    omega
  obtain ⟨r, s', hrun, hs, rfl⟩ := hall.returns
  rw [if_neg (by decide)] at hs
  obtain ⟨tot, htot, hst⟩ := hs
  obtain rfl : tot = 26 * BSIZE := by omega
  obtain ⟨q, s'', hread, rfl, hbytes, hlen⟩ := ((byte_array hst.inv (hst.node.loaded hl) hst.file
    (show BSIZE < 2 ^ 32 by decide) (show 3 < 2 ^ 32 by decide) :
      (_ → (∀ k < _, (sevens k).isSome) → _) ∧ _).2 fun k _ => show inKernel k = true from rfl).returns
  have hq : q.2 = [7, 7, 7] := by
    rw [hbytes]
    decide +kernel
  refine ⟨s'', hrun, hst, hread.trans ?_⟩
  rw [show q = (3, [7, 7, 7]) from Prod.ext (by rw [hlen, hq]; rfl) hq]

/-- 28 blocks do not fit the log of `mkfs`, with the bitmap block and the indirect block. -/
theorem writei_tooBig : Inv Mkfs.sb (newImage Mkfs.sb T_FILE) ∧
    Loaded (newImage Mkfs.sb T_FILE) rootPtr ∧ InOp (newImage Mkfs.sb T_FILE) ∧
    ¬ Refused 0 0 (28 * BSIZE) ∧
    wp (writei Mkfs.sb rootPtr (fun _ => some 7) 0 (28 * BSIZE)) (fun _ _ => False)
      (·.why = .tooBig) (newImage Mkfs.sb T_FILE) :=
  ⟨inv_newImage (by decide), loaded_newImage _ _, ⟨Nat.one_pos, List.nodup_nil⟩, by decide,
    by decide +kernel⟩

end Xv6.Fs
