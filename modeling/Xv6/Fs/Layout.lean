import Xv6.Log.Header

/-!
# The format of the file system

`kernel/fs.h`: the super block, and what the bytes of a block stand for.  A block of
the bitmap is an array of bits, an inode block an array of `struct dinode`, an indirect
block an array of `uint`.  A store to one element is read back, and no other element
changes.
-/

namespace Xv6.Fs

open Bytes

/-! ## Constants and the super block -/

/-- Root i-number. -/
def ROOTINO : Nat := 1
def NDIRECT : Nat := 12
/-- `BSIZE / sizeof(uint)`. -/
def NINDIRECT : Nat := BSIZE / 4
def MAXFILE : Nat := NDIRECT + NINDIRECT
/-- Inodes per block, `BSIZE / sizeof(struct dinode)`. -/
def IPB : Nat := BSIZE / 64
/-- Bitmap bits per block. -/
def BPB : Nat := BSIZE * 8

theorem BPB_eq : BPB = 8192 := rfl
theorem IPB_eq : IPB = 16 := rfl

/-- The type of an inode with a file, in `kernel/stat.h`. -/
def T_FILE : Int16 := 2

/-- `struct superblock`, without `magic` and `nblocks`.  The parts of the disk come in
the order boot block, super block, log, inode blocks, bitmap, data.  Block numbers are
positive numbers of type `int`, and i-numbers fit the `ushort` of a directory entry. -/
structure Superblock where
  /-- Size of file system image (blocks). -/
  size : Nat
  /-- Number of inodes. -/
  ninodes : Nat
  /-- Number of log blocks. -/
  nlog : Nat
  logstart : Nat
  inodestart : Nat
  bmapstart : Nat
  super_lt : 1 < logstart
  log_le : logstart + nlog ≤ inodestart
  inodes_le : inodestart + ninodes / IPB + 1 ≤ bmapstart
  bmap_le : bmapstart + size / BPB + 1 ≤ size
  size_lt : size < 2 ^ 31
  ninodes_le : ninodes ≤ 2 ^ 16

namespace Superblock

variable (sb : Superblock)

/-- Block containing inode `i`. -/
def iblock (i : Nat) : Nat := i / IPB + sb.inodestart

/-- Block of free map containing bit for block `b`. -/
def bblock (b : Nat) : Nat := b / BPB + sb.bmapstart

/-- The first block after the bitmap. -/
def datastart : Nat := sb.bmapstart + sb.size / BPB + 1

variable {sb}

theorem datastart_le : sb.datastart ≤ sb.size := sb.bmap_le

theorem bblock_lt {b : Nat} (h : b < sb.size) :
    sb.bmapstart ≤ sb.bblock b ∧ sb.bblock b < sb.datastart := by
  simp only [bblock, datastart, BPB_eq]
  omega

theorem iblock_lt {i : Nat} (h : i < sb.ninodes) :
    sb.inodestart ≤ sb.iblock i ∧ sb.iblock i < sb.bmapstart := by
  have hle := sb.inodes_le
  simp only [iblock, IPB_eq] at hle ⊢
  omega

end Superblock

/-! ## Bits -/

/-- The bit `bp->data[i/8] & (1 << (i % 8))`. -/
def getBit (v : Block) (i : Nat) : Bool := (v.get (i / 8)).toNat.testBit (i % 8)

/-- `bp->data[i/8] |= m` or `bp->data[i/8] &= ~m`, with `m = 1 << (i % 8)`. -/
def setBit (v : Block) (i : Nat) (x : Bool) : Block :=
  let byte := (v.get (i / 8)).toNat
  let m := 2 ^ (i % 8)
  v.write (i / 8) [UInt8.ofNat (if x then byte ||| m else byte &&& (255 ^^^ m))]

theorem testBit_byte {n k : Nat} (hk : k < 8) : (UInt8.ofNat n).toNat.testBit k = n.testBit k := by
  rw [UInt8.toNat_ofNat', Nat.testBit_mod_two_pow]
  simp [hk]

theorem getBit_setBit (v : Block) {i j : Nat} (x : Bool) (hi : i < BPB) :
    getBit (setBit v i x) j = if j = i then x else getBit v j := by
  have hi8 : i / 8 < BSIZE := by unfold BPB at hi; omega
  unfold getBit setBit
  by_cases hd : j / 8 = i / 8
  · have hj8 : j % 8 < 8 := Nat.mod_lt _ (by decide)
    have h255 : Nat.testBit 255 (j % 8) = true := by
      rw [show 255 = 2 ^ 8 - 1 from rfl, Nat.testBit_two_pow_sub_one]
      simpa using hj8
    rw [hd, v.get_write_self hi8, testBit_byte hj8]
    by_cases hji : j = i
    · subst hji
      cases x with
      | true => simp [Nat.testBit_or, Nat.testBit_two_pow_self]
      | false => simp [Nat.testBit_and, Nat.testBit_xor, Nat.testBit_two_pow_self, h255]
    · have hne : i % 8 ≠ j % 8 := fun h => hji (by omega)
      rw [if_neg hji]
      cases x with
      | true => simp [Nat.testBit_or, Nat.testBit_two_pow_of_ne hne]
      | false => simp [Nat.testBit_and, Nat.testBit_xor, Nat.testBit_two_pow_of_ne hne, h255]
  · rw [v.get_write_of_disjoint _ _ (by simp only [List.length_singleton]; omega),
      if_neg (fun h => hd (by rw [h]))]

/-! ## Arrays of `uint` -/

/-- `((uint*)bp->data)[i]`. -/
def getUint (v : Block) (i : Nat) : Nat := v.getLe (4 * i) 4

/-- `((uint*)bp->data)[i] = a`. -/
def setUint (v : Block) (i a : Nat) : Block := v.setLe (4 * i) 4 a

theorem getUint_setUint (v : Block) {i j a : Nat} (hi : i < NINDIRECT) (ha : a < 2 ^ 32) :
    getUint (setUint v i a) j = if j = i then a else getUint v j := by
  unfold getUint setUint
  by_cases hji : j = i
  · subst hji
    have hfit : 4 * j + 4 ≤ BSIZE := by unfold NINDIRECT BSIZE at hi; unfold BSIZE; omega
    rw [if_pos rfl, v.getLe_setLe a hfit, Nat.mod_eq_of_lt (by simpa using ha)]
  · rw [if_neg hji, v.getLe_setLe_of_disjoint a (by omega)]

/-- `memset(bp->data, 0, BSIZE)`. -/
def zeroBlock : Block := fun _ => 0

theorem read_zeroBlock (off len : Nat) : zeroBlock.read off len = List.replicate len 0 := by
  apply List.ext_getElem
  · simp
  · intro k hk hk'
    simp [Region.read, Region.get, zeroBlock]

theorem getUint_zeroBlock (i : Nat) : getUint zeroBlock i = 0 := by
  rw [getUint, Region.getLe, read_zeroBlock]
  rfl

/-! ## Inodes -/

/-- `struct dinode`. -/
@[ext] structure Dinode where
  type : Int16
  /-- Major device number (`T_DEVICE` only). -/
  major : Int16
  minor : Int16
  /-- Number of links to inode in file system. -/
  nlink : Int16
  /-- Size of file (bytes). -/
  size : UInt32
  /-- Data block addresses. -/
  addrs : Fin (NDIRECT + 1) → UInt32
  deriving DecidableEq

/-- The bytes of a `short`. -/
def shortBytes (x : Int16) : List UInt8 := toLe 2 x.toUInt16.toNat

def shortOf (bs : List UInt8) : Int16 := (UInt16.ofNat (ofLe bs)).toInt16

@[simp] theorem length_shortBytes (x : Int16) : (shortBytes x).length = 2 := length_toLe 2 _

theorem shortOf_shortBytes (x : Int16) : shortOf (shortBytes x) = x := by
  have hlt := x.toUInt16.toNat_lt
  rw [shortOf, shortBytes, ofLe_toLe, Nat.mod_eq_of_lt (by simpa using hlt), UInt16.ofNat_toNat]
  rfl

def uintBytes (x : UInt32) : List UInt8 := toLe 4 x.toNat

def uintOf (bs : List UInt8) : UInt32 := UInt32.ofNat (ofLe bs)

@[simp] theorem length_uintBytes (x : UInt32) : (uintBytes x).length = 4 := length_toLe 4 _

theorem uintOf_uintBytes (x : UInt32) : uintOf (uintBytes x) = x := by
  have hlt := x.toNat_lt
  rw [uintOf, uintBytes, ofLe_toLe, Nat.mod_eq_of_lt (by simpa using hlt), UInt32.ofNat_toNat]

/-- The bytes of an inode. -/
def Dinode.bytes (d : Dinode) : List UInt8 :=
  shortBytes d.type ++ (shortBytes d.major ++ (shortBytes d.minor ++ (shortBytes d.nlink ++
    (uintBytes d.size ++ (List.finRange (NDIRECT + 1)).flatMap fun i => uintBytes (d.addrs i)))))

def Dinode.ofBytes (bs : List UInt8) : Dinode where
  type := shortOf (bs.take 2)
  major := shortOf ((bs.drop 2).take 2)
  minor := shortOf ((bs.drop 4).take 2)
  nlink := shortOf ((bs.drop 6).take 2)
  size := uintOf ((bs.drop 8).take 4)
  addrs i := uintOf ((bs.drop (12 + 4 * i.val)).take 4)

/-- `((struct dinode*)bp->data)[i]`. -/
def getDinode (v : Block) (i : Nat) : Dinode := .ofBytes (v.read (64 * i) 64)

def setDinode (v : Block) (i : Nat) (d : Dinode) : Block := v.write (64 * i) d.bytes

@[simp] theorem Dinode.length_bytes (d : Dinode) : d.bytes.length = 64 := by
  have hlen := length_flatMap_fields (fun i => uintBytes (d.addrs i)) fun i =>
    length_uintBytes (d.addrs i)
  simp only [bytes, List.length_append, length_shortBytes, length_uintBytes, hlen]
  rfl

/-- The fields after the first one. -/
theorem drop_field {a b : List UInt8} {k : Nat} (h : a.length ≤ k) :
    (a ++ b).drop k = b.drop (k - a.length) := by
  rw [List.drop_append, List.drop_of_length_le h, List.nil_append]

theorem Dinode.ofBytes_bytes (d : Dinode) : ofBytes d.bytes = d := by
  have htail := take_drop_flatMap (fun i => uintBytes (d.addrs i)) fun i =>
    length_uintBytes (d.addrs i)
  ext1
  · simp [ofBytes, bytes, shortOf_shortBytes]
  · simp [ofBytes, bytes, drop_field, shortOf_shortBytes]
  · simp [ofBytes, bytes, drop_field, shortOf_shortBytes]
  · simp [ofBytes, bytes, drop_field, shortOf_shortBytes]
  · simp [ofBytes, bytes, drop_field, uintOf_uintBytes]
  · funext i
    have hdrop : d.bytes.drop (12 + 4 * i.val) = ((List.finRange (NDIRECT + 1)).flatMap
        fun i => uintBytes (d.addrs i)).drop (4 * i.val) := by
      rw [← List.drop_drop]
      simp [bytes, drop_field]
    show uintOf ((d.bytes.drop (12 + 4 * i.val)).take 4) = d.addrs i
    rw [hdrop, htail i, uintOf_uintBytes]

theorem getDinode_setDinode (v : Block) {i j : Nat} (d : Dinode) (hi : i < IPB) :
    getDinode (setDinode v i d) j = if j = i then d else getDinode v j := by
  unfold getDinode setDinode
  by_cases hji : j = i
  · subst hji
    have hread := v.read_write (64 * j) d.bytes (by
      rw [d.length_bytes]; unfold IPB BSIZE at hi; unfold BSIZE; omega)
    rw [d.length_bytes] at hread
    rw [if_pos rfl, hread, Dinode.ofBytes_bytes]
  · rw [if_neg hji, v.read_write_of_disjoint _ _ _ _ (by rw [d.length_bytes]; omega)]

end Xv6.Fs
