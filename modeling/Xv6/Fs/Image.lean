import Xv6.Fs.Contents

/-!
# A new file system

The numbers that `mkfs/mkfs.c` puts into the super block, and an image with one inode, which is
empty: the bitmap has the blocks before the data area, and there is nothing else.  The image meets
`Inv`.
-/

namespace Xv6

open Fs Bytes Census

/-! ## The super block of `mkfs` -/

namespace Mkfs

/-- Size of file system in blocks. -/
def FSSIZE : Nat := 2000
def NINODES : Nat := 200
def ninodeblocks : Nat := NINODES / IPB + 1
def nlog : Nat := LOGSIZE

def sb : Superblock where
  size := FSSIZE
  ninodes := NINODES
  nlog := nlog
  logstart := 2
  inodestart := 2 + nlog
  bmapstart := 2 + nlog + ninodeblocks
  super_lt := by decide
  log_le := by decide
  inodes_le := by decide
  bmap_le := by decide
  size_lt := by decide
  ninodes_le := by decide

end Mkfs

namespace Fs

variable {sb : Superblock} {n c x i : Nat} {type : Int16}

/-! ## The image -/

/-- A disk of zeroes on which the first blocks are marked. -/
def markedDisk (sb : Superblock) : Nat → Disk
  | 0 => fun _ => zeroBlock
  | n + 1 => Function.update (markedDisk sb n) (sb.bblock n)
      (setBit (markedDisk sb n (sb.bblock n)) (n % BPB) true)

theorem bitAt_markedDisk : bitAt sb (markedDisk sb n) c = decide (c < n) := by
  induction n with
  | zero =>
      rw [bitAt, getBit, markedDisk, Region.get]
      split <;> exact Nat.zero_testBit _
  | succ n ih =>
      rw [markedDisk, bitAt_setBit, ih]
      split
      · rename_i h
        simp [h]
      · rename_i h
        exact decide_eq_decide.mpr (by omega)

theorem markedDisk_of_not_bits (hn : n ≤ sb.size) (hx : ¬ sb.Bits x) :
    markedDisk sb n x = zeroBlock := by
  induction n with
  | zero => rfl
  | succ n ih =>
      have hne : x ≠ sb.bblock n := fun he => hx (he ▸ sb.bblock_lt hn)
      rw [markedDisk, Function.update_of_ne hne, ih (by omega)]

/-- An inode without contents and with one link. -/
def emptyNode (type : Int16) : Dinode := { newDinode type with nlink := 1 }

/-- The image has inode `ROOTINO`, which is empty.  It is the inode of the first table entry. -/
def newImage (sb : Superblock) (type : Int16) : State where
  disk := Function.update (markedDisk sb sb.datastart) (sb.iblock ROOTINO)
    (setDinode (markedDisk sb sb.datastart (sb.iblock ROOTINO)) (ROOTINO % IPB) (emptyNode type))
  lh := []
  ops := ⟨1, []⟩
  itable e := if e.val = 0 then ⟨ROOTDEV, ROOTINO, 1, false, true, emptyNode type⟩
    else ⟨0, 0, 0, false, false, newDinode 0⟩

theorem NINODE_pos : 0 < NINODE := Nat.succ_pos 49

/-- The first table entry. -/
def rootPtr : Ptr := ⟨0, NINODE_pos⟩

theorem inodeAt_newImage (hi : i < sb.ninodes) :
    inodeAt sb (newImage sb type).disk i = if i = ROOTINO then emptyNode type else newDinode 0 := by
  rw [newImage, inodeAt_update]
  split
  · rfl
  · rw [inodeAt, markedDisk_of_not_bits sb.datastart_le (not_bits_iblock hi), getDinode,
      read_zeroBlock]
    exact Dinode.ofBytes_bytes (newDinode 0)

theorem slotAddr_emptyNode (m : Disk) (k : Nat) : slotAddr m (emptyNode type) k = 0 := by
  have haddr : ∀ k, (emptyNode type).addr k = 0 := fun k => by
    rw [Dinode.addr]
    split <;> rfl
  rw [slotAddr]
  split
  · exact haddr k
  · rw [if_pos (haddr _)]

theorem bitAt_newImage (hroot : ROOTINO < sb.ninodes) (hc : c < sb.size) :
    bitAt sb (newImage sb type).disk c = decide (c < sb.datastart) := by
  have hbits : ∀ x, sb.Bits x → (newImage sb type).disk x = markedDisk sb sb.datastart x := by
    intro x hx
    have hne : x ≠ sb.iblock ROOTINO := fun he => not_bits_iblock hroot (he ▸ hx)
    exact Function.update_of_ne hne ..
  rw [bitAt_congr hbits hc, bitAt_markedDisk]

theorem slotTable_newImage (hi : i < sb.ninodes) (k : Nat) :
    slotTable (newImage sb type).disk (inodeAt sb (newImage sb type).disk) i k = 0 := by
  rw [slotTable, inodeAt_newImage hi]
  by_cases h : i = ROOTINO
  · rw [if_pos h, slotAddr_emptyNode, ite_self]
  · rw [if_neg h]
    exact if_pos rfl

theorem blocks_newImage (hroot : ROOTINO < sb.ninodes) :
    Blocks sb (newImage sb type).disk (inodeAt sb (newImage sb type).disk) := by
  have hsize : ∀ i < sb.ninodes, (inodeAt sb (newImage sb type).disk i).size = 0 := by
    intro i hi
    rw [inodeAt_newImage hi]
    split <;> rfl
  have htotal : ∀ b, b ≠ 0 → total sb.ninodes NSLOT
      (slotTable (newImage sb type).disk (inodeAt sb (newImage sb type).disk)) b = 0 := by
    intro b hb
    by_contra hne
    obtain ⟨i, hi, k, -, hk⟩ := total_pos.mp (Nat.pos_iff_ne_zero.mpr hne)
    rw [slotTable_newImage hi] at hk
    exact hb hk.symm
  have hpos : 0 < sb.datastart := Nat.succ_pos _
  refine ⟨⟨hpos, fun b hb => ?_, fun b hlo hb => ?_, fun b hb => ?_, fun i hi k _ h0 => ?_⟩,
    fun i hi _ k hk => ?_, fun i hi _ => ?_⟩
  · rw [bitAt_newImage hroot (Nat.lt_of_lt_of_le hb sb.datastart_le)]
    simpa using hb
  · rw [bitAt_newImage hroot hb, htotal b (by omega)]
    simpa using hlo
  · rw [htotal b hb]
    exact Nat.zero_le _
  · exact absurd (slotTable_newImage hi k) h0
  · rw [hsize i hi] at hk
    exact absurd hk (Nat.not_lt_zero _)
  · rw [hsize i hi]
    exact Nat.zero_le _

theorem loaded_newImage (sb : Superblock) (type : Int16) : Loaded (newImage sb type) rootPtr :=
  ⟨Nat.one_pos, rfl⟩

theorem ref_newImage {e : Ptr} (h : 0 < ((newImage sb type).itable e).ref) : e = rootPtr := by
  rw [newImage] at h
  by_cases he : e.val = 0
  · exact Fin.ext he
  · simp only [if_neg he] at h
    exact absurd h (Nat.lt_irrefl 0)

theorem inv_newImage (hroot : ROOTINO < sb.ninodes) : Inv sb (newImage sb type) := by
  refine ⟨blocks_newImage hroot, fun e _ hr _ => ?_, fun e e' hr hr' _ => ?_, fun e hr => ?_,
    fun e _ => ?_⟩
  · obtain rfl := ref_newImage hr
    exact ⟨hroot, ((inodeAt_newImage hroot).trans (if_pos rfl)).symm⟩
  · rw [ref_newImage hr, ref_newImage hr']
  · obtain rfl := ref_newImage hr
    rfl
  · show (if e.val = 0 then _ else _ : Inode).locked = false
    split <;> rfl

theorem file_newImage (hroot : ROOTINO < sb.ninodes) (ht : type ≠ 0) :
    files sb (newImage sb type) ROOTINO = some ⟨type, 0, 0, 1, []⟩ := by
  have hnode : inodeAt sb (newImage sb type).disk ROOTINO = emptyNode type :=
    (inodeAt_newImage hroot).trans (if_pos rfl)
  rw [files, filesIn, if_pos hroot, hnode, fileOf]
  exact if_neg ht

end Fs

end Xv6
