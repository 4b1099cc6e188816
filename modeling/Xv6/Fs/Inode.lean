import Xv6.Fs.Layout
import Xv6.Lib.Census

/-!
# The blocks and the contents of an inode

An inode has `NSLOT` places for block addresses: the direct ones, the one of the indirect
block, and the entries of the indirect block.  They are numbered here, so that all of them are
one table, and `blockSlot` is the place for a block of the file.  The contents of a file are
read through them.
-/

namespace Xv6.Fs

open Bytes

/-- The inode `i` on the disk. -/
def inodeAt (sb : Superblock) (m : Disk) (i : Nat) : Dinode := getDinode (m (sb.iblock i)) (i % IPB)

/-- The other inodes of the block are not changed. -/
theorem inodeAt_update {sb : Superblock} (m : Disk) (i j : Nat) (d : Dinode) :
    inodeAt sb (Function.update m (sb.iblock i) (setDinode (m (sb.iblock i)) (i % IPB) d)) j =
      if j = i then d else inodeAt sb m j := by
  have hmod : i % IPB < IPB := Nat.mod_lt _ (by decide)
  unfold inodeAt
  by_cases hb : sb.iblock j = sb.iblock i
  · rw [hb, Function.update_self, getDinode_setDinode _ _ hmod]
    have hiff : j % IPB = i % IPB ↔ j = i := by
      unfold Superblock.iblock at hb
      rw [IPB_eq] at hb ⊢
      omega
    simp only [hiff]
  · rw [Function.update_of_ne hb, if_neg fun h => hb (by rw [h])]

theorem MAXFILE_eq : MAXFILE = 268 := rfl

theorem BSIZE_eq : BSIZE = 1024 := rfl

/-! ## Addresses -/

/-- `ip->addrs[k]`. -/
def Dinode.addr (d : Dinode) (k : Nat) : Nat :=
  if h : k < NDIRECT + 1 then (d.addrs ⟨k, h⟩).toNat else 0

/-- `ip->addrs[k] = a`. -/
def Dinode.setAddr (d : Dinode) (k a : Nat) : Dinode :=
  { d with addrs := fun i => if i.val = k then UInt32.ofNat a else d.addrs i }

def Dinode.setSize (d : Dinode) (n : Nat) : Dinode := { d with size := UInt32.ofNat n }

/-- The number of places for addresses. -/
def NSLOT : Nat := NDIRECT + 1 + NINDIRECT

/-- The address at a place of an inode. -/
def slotAddr (m : Disk) (d : Dinode) (k : Nat) : Nat :=
  if k ≤ NDIRECT then d.addr k
  else if d.addr NDIRECT = 0 then 0
  else getUint (m (d.addr NDIRECT)) (k - (NDIRECT + 1))

/-- The place for block `k` of a file. -/
def blockSlot (k : Nat) : Nat := if k < NDIRECT then k else k + 1

/-- The address of block `k` of a file, or 0. -/
def blockAddr (m : Disk) (d : Dinode) (k : Nat) : Nat := slotAddr m d (blockSlot k)

section Addresses

variable {m m' : Disk} {d : Dinode} {a j k : Nat}

theorem Dinode.addr_setAddr (hk : k ≤ NDIRECT) (ha : a < 2 ^ 32) :
    (d.setAddr k a).addr j = if j = k then a else d.addr j := by
  unfold Dinode.addr Dinode.setAddr
  by_cases hj : j < NDIRECT + 1
  · by_cases hjk : j = k
    · subst hjk
      simp only [hj, dif_pos, if_true]
      exact UInt32.toNat_ofNat_of_lt' ha
    · simp [hj, hjk]
  · have hjk : j ≠ k := by omega
    simp [hj, hjk]

@[simp] theorem Dinode.addr_setSize (d : Dinode) (n k : Nat) : (d.setSize n).addr k = d.addr k := rfl

theorem Dinode.size_setSize (d : Dinode) {n : Nat} (hn : n < 2 ^ 32) :
    (d.setSize n).size.toNat = n :=
  UInt32.toNat_ofNat_of_lt' hn

theorem blockSlot_lt (h : k < MAXFILE) : blockSlot k < NSLOT := by
  unfold MAXFILE at h
  unfold blockSlot NSLOT
  split <;> omega

theorem blockSlot_inj (h : blockSlot j = blockSlot k) : j = k := by
  unfold blockSlot at h
  split at h <;> split at h <;> omega

theorem blockSlot_ne_indirect (k : Nat) : blockSlot k ≠ NDIRECT := by
  unfold blockSlot
  split <;> omega

@[simp] theorem slotAddr_setSize (m : Disk) (d : Dinode) (n k : Nat) :
    slotAddr m (d.setSize n) k = slotAddr m d k := rfl

/-- The addresses depend on the indirect block only. -/
theorem slotAddr_congr (h : d.addr NDIRECT ≠ 0 → m' (d.addr NDIRECT) = m (d.addr NDIRECT)) (k : Nat) :
    slotAddr m' d k = slotAddr m d k := by
  unfold slotAddr
  split
  · rfl
  · split
    · rfl
    · rename_i h0
      rw [h h0]

theorem slotAddr_update {x : Nat} (h : d.addr NDIRECT ≠ 0 → d.addr NDIRECT ≠ x) (v : Block)
    (k : Nat) : slotAddr (Function.update m x v) d k = slotAddr m d k :=
  slotAddr_congr (fun h0 => Function.update_of_ne (h h0) _ _) k

theorem slotAddr_setAddr_direct (hk : k < NDIRECT) (ha : a < 2 ^ 32) :
    slotAddr m (d.setAddr k a) j = if j = k then a else slotAddr m d j := by
  have hind : (d.setAddr k a).addr NDIRECT = d.addr NDIRECT := by
    rw [Dinode.addr_setAddr hk.le ha, if_neg (by omega)]
  unfold slotAddr
  rw [hind, Dinode.addr_setAddr hk.le ha]
  by_cases hjk : j = k
  · subst hjk
    rw [if_pos hk.le, if_pos rfl, if_pos rfl]
  · simp only [hjk, if_false]

/-- A new indirect block that is zeroed. -/
theorem slotAddr_setAddr_indirect (h0 : d.addr NDIRECT = 0) (hz : m a = zeroBlock) (ha : a < 2 ^ 32) :
    slotAddr m (d.setAddr NDIRECT a) j = if j = NDIRECT then a else slotAddr m d j := by
  unfold slotAddr
  rw [Dinode.addr_setAddr le_rfl ha, Dinode.addr_setAddr le_rfl ha, if_pos rfl, if_pos h0]
  by_cases hj : j ≤ NDIRECT
  · rw [if_pos hj, if_pos hj]
  · rw [if_neg hj, if_neg hj, if_neg (by omega : j ≠ NDIRECT), hz, getUint_zeroBlock, ite_self]

/-- An entry of the indirect block is set. -/
theorem slotAddr_setUint (h0 : d.addr NDIRECT ≠ 0) (hj : j < NINDIRECT) (ha : a < 2 ^ 32) :
    slotAddr (Function.update m (d.addr NDIRECT) (setUint (m (d.addr NDIRECT)) j a)) d k =
      if k = NDIRECT + 1 + j then a else slotAddr m d k := by
  unfold slotAddr
  rw [Function.update_self, if_neg h0, if_neg h0]
  by_cases hk : k ≤ NDIRECT
  · rw [if_pos hk, if_neg (by omega), if_pos hk]
  · rw [if_neg hk, if_neg hk, getUint_setUint _ hj ha]
    have hiff : k - (NDIRECT + 1) = j ↔ k = NDIRECT + 1 + j := by omega
    simp only [hiff]

theorem blockAddr_direct (hk : k < NDIRECT) : blockAddr m d k = d.addr k := by
  rw [blockAddr, blockSlot, if_pos hk, slotAddr, if_pos hk.le]

theorem blockAddr_indirect (hk : NDIRECT ≤ k) (h0 : d.addr NDIRECT ≠ 0) :
    blockAddr m d k = getUint (m (d.addr NDIRECT)) (k - NDIRECT) := by
  rw [blockAddr, blockSlot, if_neg (by omega), slotAddr, if_neg (by omega), if_neg h0,
    Nat.add_sub_add_right]

end Addresses

/-! ## Contents -/

/-- The byte at an offset. -/
def byteAt (m : Disk) (d : Dinode) (off : Nat) : UInt8 :=
  (m (blockAddr m d (off / BSIZE))).get (off % BSIZE)

/-- The contents of a file. -/
def bytes (m : Disk) (d : Dinode) : List UInt8 := (List.range d.size.toNat).map (byteAt m d)

/-- Every block of the file has an address. -/
def Filled (m : Disk) (d : Dinode) : Prop := ∀ k, k * BSIZE < d.size.toNat → blockAddr m d k ≠ 0

/-- Bytes from an offset on are replaced, and the list grows if they go past its end. -/
def splice (data : List UInt8) (off : Nat) (w : List UInt8) : List UInt8 :=
  data.take off ++ w ++ data.drop (off + w.length)

section Contents

variable {m m' : Disk} {d : Dinode} {off x o : Nat} {w data : List UInt8}

@[simp] theorem length_bytes (m : Disk) (d : Dinode) : (bytes m d).length = d.size.toNat := by
  simp [bytes]

theorem getElem?_bytes :
    (bytes m d)[o]? = if o < d.size.toNat then some (byteAt m d o) else none := by
  by_cases h : o < d.size.toNat
  · simp [bytes, h]
  · simp [bytes, h]

theorem Filled.at (h : Filled m d) (ho : o < d.size.toNat) : blockAddr m d (o / BSIZE) ≠ 0 :=
  h _ (Nat.lt_of_le_of_lt (Nat.div_mul_le_self _ _) ho)

/-- The contents depend on the blocks of the file. -/
theorem bytes_congr (h0 : d.addr NDIRECT ≠ 0 → m' (d.addr NDIRECT) = m (d.addr NDIRECT))
    (h : ∀ k, k * BSIZE < d.size.toNat → m' (blockAddr m d k) = m (blockAddr m d k)) :
    bytes m' d = bytes m d := by
  refine List.map_congr_left fun o ho => ?_
  have ho' : o < d.size.toNat := List.mem_range.mp ho
  have haddr : blockAddr m' d (o / BSIZE) = blockAddr m d (o / BSIZE) := slotAddr_congr h0 _
  rw [byteAt, byteAt, haddr, h _ (Nat.lt_of_le_of_lt (Nat.div_mul_le_self _ _) ho')]

theorem length_splice (h : off ≤ data.length) :
    (splice data off w).length = max data.length (off + w.length) := by
  simp only [splice, List.length_append, List.length_take, List.length_drop]
  omega

theorem getElem?_splice (h : off ≤ data.length) :
    (splice data off w)[o]? =
      if o < off then data[o]? else if o < off + w.length then w[o - off]? else data[o]? := by
  have hlen : (data.take off).length = off := by simp [h]
  unfold splice
  by_cases h1 : o < off
  · rw [if_pos h1, List.append_assoc, List.getElem?_append_left (by omega), List.getElem?_take,
      if_pos h1]
  · rw [if_neg h1]
    by_cases h2 : o < off + w.length
    · rw [if_pos h2, List.getElem?_append_left (by rw [List.length_append]; omega),
        List.getElem?_append_right (by omega), hlen]
    · rw [if_neg h2, List.getElem?_append_right (by rw [List.length_append]; omega),
        List.length_append, hlen, List.getElem?_drop]
      congr 1
      omega

/-- A store into one block of a file, at most at its end. -/
theorem bytes_write (hoff : off ≤ d.size.toNat)
    (hfit : off % BSIZE + w.length ≤ BSIZE) (hmax : off + w.length ≤ MAXFILE * BSIZE)
    (hsize : d.size.toNat ≤ MAXFILE * BSIZE)
    (hx : blockAddr m d (off / BSIZE) = x)
    (hone : ∀ k < NSLOT, slotAddr m d k = x → k = blockSlot (off / BSIZE)) :
    bytes (Function.update m x ((m x).write (off % BSIZE) w))
      (d.setSize (max d.size.toNat (off + w.length))) = splice (bytes m d) off w := by
  have hB := BSIZE_eq
  have hM := MAXFILE_eq
  rw [hB, hM] at hmax hsize
  rw [hB] at hfit
  have hlt : max d.size.toNat (off + w.length) < 2 ^ 32 := by omega
  refine List.ext_getElem? fun o => ?_
  rw [getElem?_bytes, getElem?_splice (by rw [length_bytes]; exact hoff), getElem?_bytes,
    Dinode.size_setSize _ hlt]
  -- the place of the byte in the new disk
  have hind : d.addr NDIRECT ≠ 0 → d.addr NDIRECT ≠ x := by
    intro _ he
    have hs : slotAddr m d NDIRECT = x := by rw [slotAddr, if_pos le_rfl, he]
    exact blockSlot_ne_indirect _ (hone _ (by unfold NSLOT; omega) hs).symm
  have haddr : ∀ o, blockAddr (Function.update m x ((m x).write (off % BSIZE) w))
      (d.setSize (max d.size.toNat (off + w.length))) o = blockAddr m d o := fun o =>
    (slotAddr_update hind _ _).trans rfl
  have hbyte : o < max d.size.toNat (off + w.length) →
      byteAt (Function.update m x ((m x).write (off % BSIZE) w))
        (d.setSize (max d.size.toNat (off + w.length))) o =
      if o < off then byteAt m d o
      else if o < off + w.length then (w[o - off]?).getD 0 else byteAt m d o := by
    intro ho
    rw [byteAt, haddr]
    by_cases hk : o / BSIZE = off / BSIZE
    · rw [byteAt, hk, hx, Function.update_self]
      have ho1 : o % BSIZE = o % 1024 := rfl
      have ho2 : off % BSIZE = off % 1024 := rfl
      rw [hB] at hk
      by_cases h1 : o < off
      · rw [if_pos h1, Region.get_write_of_disjoint _ _ _ (by omega)]
      · rw [if_neg h1]
        by_cases h2 : o < off + w.length
        · have hpos : o - off < w.length := by omega
          have hmod : o % BSIZE = off % BSIZE + (o - off) := by omega
          rw [if_pos h2, hmod, Region.get_write_of_mem _ hpos (by omega),
            List.getElem?_eq_getElem hpos, Option.getD_some]
        · rw [if_neg h2, Region.get_write_of_disjoint _ _ _ (by omega)]
    · have hne : blockAddr m d (o / BSIZE) ≠ x := by
        intro he
        have hMx : o / BSIZE < MAXFILE := by rw [hB, hM]; omega
        exact hk (blockSlot_inj (hone _ (blockSlot_lt hMx) he))
      rw [Function.update_of_ne hne, ← byteAt]
      have hout : o < off ∨ ¬ o < off + w.length := by rw [hB] at hk; omega
      rcases hout with h1 | h2
      · rw [if_pos h1]
      · rw [if_neg h2, ite_self]
  by_cases ho : o < max d.size.toNat (off + w.length)
  · rw [if_pos ho, hbyte ho]
    by_cases h1 : o < off
    · rw [if_pos h1, if_pos h1, if_pos (by omega)]
    · rw [if_neg h1, if_neg h1]
      by_cases h2 : o < off + w.length
      · have hpos : o - off < w.length := by omega
        rw [if_pos h2, if_pos h2, List.getElem?_eq_getElem hpos, Option.getD_some]
      · rw [if_neg h2, if_neg h2, if_pos (by omega)]
  · rw [if_neg ho, if_neg (by omega), if_neg (by omega), if_neg (by omega)]

end Contents

/-! ## All inodes -/

/-- The addresses of the inodes that are allocated. -/
def slotTable (m : Disk) (nodes : Nat → Dinode) (i k : Nat) : Nat :=
  if (nodes i).type = 0 then 0 else slotAddr m (nodes i) k

section Owners

variable {sb : Superblock} {m m' : Disk} {nodes nodes' : Nat → Dinode} {i i' k k' b : Nat}

theorem slotTable_of_type (h : (nodes i).type ≠ 0) (k : Nat) :
    slotTable m nodes i k = slotAddr m (nodes i) k := if_neg h

end Owners

end Xv6.Fs
