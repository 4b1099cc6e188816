import Xv6.Fs.Inode
import Xv6.Lib.Ledger

/-!
# Who owns which block

The bitmap and the inodes agree: a data block is marked in the bitmap exactly if it has one place
among the addresses of the allocated inodes, and it never has two.  Every block of a file up to its
size has an address.  `Blocks` says so for a disk and for given inodes, which need not all be those
on the disk: the copy of an inode in memory may be ahead of it.

A new block, a store to a data block and the release of a block change what one inode says and
nothing about the others.
-/

namespace Xv6.Fs

open Bytes Census

/-! ## What a file is -/

/-- What users see of an inode. -/
@[ext] structure File where
  type : Int16
  major : Int16
  minor : Int16
  nlink : Int16
  data : List UInt8
  deriving DecidableEq

/-- No file, if the inode is free. -/
def fileOf (m : Disk) (d : Dinode) : Option File :=
  if d.type = 0 then none else some ⟨d.type, d.major, d.minor, d.nlink, bytes m d⟩

/-- The file of each inode. -/
def filesIn (sb : Superblock) (m : Disk) (nodes : Nat → Dinode) (i : Nat) : Option File :=
  if i < sb.ninodes then fileOf m (nodes i) else none

/-- The bit of block `b` in the bitmap. -/
def bitAt (sb : Superblock) (m : Disk) (b : Nat) : Bool := getBit (m (sb.bblock b)) (b % BPB)

/-- A block of the bitmap. -/
def Superblock.Bits (sb : Superblock) (x : Nat) : Prop := sb.bmapstart ≤ x ∧ x < sb.datastart

variable {sb : Superblock} {m m' : Disk} {nodes nodes' : Nat → Dinode} {d d' : Dinode}
  {i j k b x n : Nat}

theorem bitAt_congr (h : ∀ x, sb.Bits x → m' x = m x) (hb : b < sb.size) :
    bitAt sb m' b = bitAt sb m b := by
  rw [bitAt, h _ (sb.bblock_lt hb), bitAt]

/-- One bit is set or cleared. -/
theorem bitAt_setBit (m : Disk) (v : Bool) (c : Nat) :
    bitAt sb (Function.update m (sb.bblock b) (setBit (m (sb.bblock b)) (b % BPB) v)) c =
      if c = b then v else bitAt sb m c := by
  have hmod : b % BPB < BPB := Nat.mod_lt _ (by decide)
  unfold bitAt
  by_cases hb : sb.bblock c = sb.bblock b
  · rw [hb, Function.update_self, getBit_setBit _ _ hmod]
    have hiff : c % BPB = b % BPB ↔ c = b := by
      unfold Superblock.bblock at hb
      rw [BPB_eq] at hb ⊢
      omega
    simp only [hiff]
  · rw [Function.update_of_ne hb, if_neg fun h => hb (by rw [h])]

/-! ## Blocks that stay as they are -/

/-- The blocks of an inode are the same on two disks. -/
def Agree (m m' : Disk) (d : Dinode) : Prop :=
  ∀ k < NSLOT, slotAddr m d k ≠ 0 → m' (slotAddr m d k) = m (slotAddr m d k)

theorem slotAddr_indirect (m : Disk) (d : Dinode) : slotAddr m d NDIRECT = d.addr NDIRECT := by
  rw [slotAddr, if_pos le_rfl]

theorem NDIRECT_lt : NDIRECT < NSLOT := by decide

namespace Agree

theorem indirect (h : Agree m m' d) (h0 : d.addr NDIRECT ≠ 0) :
    m' (d.addr NDIRECT) = m (d.addr NDIRECT) := by
  rw [← slotAddr_indirect m d] at h0 ⊢
  exact h _ NDIRECT_lt h0

theorem slotAddr (h : Agree m m' d) (k : Nat) : Fs.slotAddr m' d k = Fs.slotAddr m d k :=
  slotAddr_congr h.indirect k

theorem filled (h : Agree m m' d) (hf : Filled m d) : Filled m' d := fun k hk => by
  rw [blockAddr, h.slotAddr]
  exact hf k hk

theorem bytes (h : Agree m m' d) (hf : Filled m d) (hs : d.size.toNat ≤ MAXFILE * BSIZE) :
    Fs.bytes m' d = Fs.bytes m d :=
  bytes_congr h.indirect fun k hk => by
    have hlt : k < MAXFILE := Nat.lt_of_mul_lt_mul_right (Nat.lt_of_lt_of_le hk hs)
    exact h _ (blockSlot_lt hlt) (hf k hk)

end Agree

/-! ## Ownership -/

/-- The bitmap and the inodes agree, and files have no holes. -/
structure Blocks (sb : Superblock) (m : Disk) (nodes : Nat → Dinode) : Prop where
  ledger : Ledger sb.datastart sb.size sb.ninodes NSLOT (bitAt sb m) (slotTable m nodes)
  filled : ∀ i < sb.ninodes, (nodes i).type ≠ 0 → Filled m (nodes i)
  sizes : ∀ i < sb.ninodes, (nodes i).type ≠ 0 → (nodes i).size.toNat ≤ MAXFILE * BSIZE

namespace Blocks

section

variable (h : Blocks sb m nodes)

include h

theorem slot_range (hi : i < sb.ninodes) (ht : (nodes i).type ≠ 0) (hk : k < NSLOT)
    (h0 : slotAddr m (nodes i) k ≠ 0) :
    sb.datastart ≤ slotAddr m (nodes i) k ∧ slotAddr m (nodes i) k < sb.size := by
  have hs := slotTable_of_type (m := m) ht k
  have := h.ledger.range i hi k hk (by rw [hs]; exact h0)
  rwa [hs] at this

/-- Two places with one address. -/
theorem slot_inj {i' k' : Nat} (hi : i < sb.ninodes) (ht : (nodes i).type ≠ 0) (hk : k < NSLOT)
    (hi' : i' < sb.ninodes) (ht' : (nodes i').type ≠ 0) (hk' : k' < NSLOT)
    (h0 : slotAddr m (nodes i) k ≠ 0) (he : slotAddr m (nodes i) k = slotAddr m (nodes i') k') :
    i = i' ∧ k = k' := by
  rw [← slotTable_of_type (m := m) ht] at h0 he
  rw [← slotTable_of_type (m := m) ht'] at he
  exact h.ledger.eq_of_eq hi hk hi' hk' h0 he

theorem slot_ne (hb : bitAt sb m b = false) (hi : i < sb.ninodes) (ht : (nodes i).type ≠ 0)
    (hk : k < NSLOT) (h0 : slotAddr m (nodes i) k ≠ 0) :
    slotAddr m (nodes i) k ≠ b := by
  rw [← slotTable_of_type (m := m) ht] at h0 ⊢
  exact h.ledger.ne_of_unmarked hb hi hk h0

theorem indirect_range (hi : i < sb.ninodes) (ht : (nodes i).type ≠ 0)
    (h0 : (nodes i).addr NDIRECT ≠ 0) :
    sb.datastart ≤ (nodes i).addr NDIRECT ∧ (nodes i).addr NDIRECT < sb.size := by
  rw [← slotAddr_indirect m] at h0 ⊢
  exact h.slot_range hi ht NDIRECT_lt h0

/-- The data blocks are the same. -/
theorem agree (hm : ∀ x, sb.datastart ≤ x → m' x = m x) (hi : i < sb.ninodes)
    (ht : (nodes i).type ≠ 0) : Agree m m' (nodes i) :=
  fun _ hk h0 => hm _ (h.slot_range hi ht hk h0).1

/-- The data blocks and the bits are the same. -/
theorem congr (hm : ∀ x, sb.datastart ≤ x → m' x = m x)
    (hbits : ∀ b < sb.size, bitAt sb m' b = bitAt sb m b) :
    Blocks sb m' nodes ∧ filesIn sb m' nodes = filesIn sb m nodes := by
  refine ⟨⟨h.ledger.congr sb.datastart_le hbits fun i hi k hk => ?_, fun i hi ht =>
    (h.agree hm hi ht).filled (h.filled i hi ht), h.sizes⟩, funext fun i => ?_⟩
  · unfold slotTable
    split
    · rfl
    · rename_i ht
      exact (h.agree hm hi ht).slotAddr k
  · unfold filesIn fileOf
    split
    · rename_i hi
      split
      · rfl
      · rename_i ht
        rw [(h.agree hm hi ht).bytes (h.filled i hi ht) (h.sizes i hi ht)]
    · rfl

/-! ## One inode changes -/

/-- Another inode, on a disk that differs in blocks that it does not have. -/
theorem agree_other (hi : i < sb.ninodes) (ht : (nodes i).type ≠ 0) (hj : j < sb.ninodes)
    (htj : (nodes j).type ≠ 0) (hji : j ≠ i)
    (hm : ∀ x, sb.datastart ≤ x → (∀ k < NSLOT, slotAddr m (nodes i) k ≠ x) →
      bitAt sb m x = true → m' x = m x) : Agree m m' (nodes j) := by
  intro k hk h0
  refine hm _ (h.slot_range hj htj hk h0).1 (fun k' hk' he => ?_) ?_
  · exact hji (h.slot_inj hi ht hk' hj htj hk (by rw [he]; exact h0) he).1.symm
  · rw [← slotTable_of_type (m := m) htj] at h0 ⊢
    exact h.ledger.marked hj hk h0

/-- The inode `i` gets another value, and the other inodes keep their blocks. -/
theorem change (hagree : ∀ j < sb.ninodes, (nodes j).type ≠ 0 → j ≠ i → Agree m m' (nodes j))
    (hledger : Ledger sb.datastart sb.size sb.ninodes NSLOT (bitAt sb m')
      (slotTable m' (Function.update nodes i d)))
    (hf : d.type ≠ 0 → Filled m' d) (hs : d.type ≠ 0 → d.size.toNat ≤ MAXFILE * BSIZE) :
    Blocks sb m' (Function.update nodes i d) := by
  refine ⟨hledger, fun j hj ht => ?_, fun j hj ht => ?_⟩
  · by_cases hji : j = i
    · subst hji
      rw [Function.update_self] at ht ⊢
      exact hf ht
    · rw [Function.update_of_ne hji] at ht ⊢
      exact (hagree j hj ht hji).filled (h.filled j hj ht)
  · by_cases hji : j = i
    · subst hji
      rw [Function.update_self] at ht ⊢
      exact hs ht
    · rw [Function.update_of_ne hji] at ht ⊢
      exact h.sizes j hj ht

theorem files_change (hi : i < sb.ninodes)
    (hagree : ∀ j < sb.ninodes, (nodes j).type ≠ 0 → j ≠ i → Agree m m' (nodes j)) :
    filesIn sb m' (Function.update nodes i d) =
      Function.update (filesIn sb m nodes) i (fileOf m' d) := by
  funext j
  by_cases hji : j = i
  · subst hji
    rw [Function.update_self, filesIn, if_pos hi, Function.update_self]
  · rw [Function.update_of_ne hji, filesIn, filesIn, Function.update_of_ne hji]
    split
    · rename_i hj
      unfold fileOf
      split
      · rfl
      · rename_i ht
        rw [(hagree j hj ht hji).bytes (h.filled j hj ht) (h.sizes j hj ht)]
    · rfl

end

theorem slotTable_other (hagree : ∀ j < sb.ninodes, (nodes j).type ≠ 0 → j ≠ i →
      Agree m m' (nodes j)) (hj : j < sb.ninodes) (hji : j ≠ i) :
    slotTable m' (Function.update nodes i d) j k = slotTable m nodes j k := by
  unfold slotTable
  rw [Function.update_of_ne hji]
  split
  · rfl
  · rename_i ht
    exact (hagree j hj ht hji).slotAddr k

/-- A store to the block `k` of a file. -/
theorem write (h : Blocks sb m nodes) (hi : i < sb.ninodes) (ht : (nodes i).type ≠ 0)
    (hk : k < MAXFILE) (h0 : blockAddr m (nodes i) k ≠ 0) (v : Block)
    (hslots : ∀ j, slotAddr (Function.update m (blockAddr m (nodes i) k) v) d j =
      slotAddr m (nodes i) j)
    (htype : d.type = (nodes i).type)
    (hf : Filled (Function.update m (blockAddr m (nodes i) k) v) d)
    (hs : d.size.toNat ≤ MAXFILE * BSIZE) :
    Blocks sb (Function.update m (blockAddr m (nodes i) k) v) (Function.update nodes i d) ∧
    filesIn sb (Function.update m (blockAddr m (nodes i) k) v) (Function.update nodes i d) =
      Function.update (filesIn sb m nodes) i
        (fileOf (Function.update m (blockAddr m (nodes i) k) v) d) := by
  have hrange := h.slot_range hi ht (blockSlot_lt hk) h0
  have hagree : ∀ j < sb.ninodes, (nodes j).type ≠ 0 → j ≠ i →
      Agree m (Function.update m (blockAddr m (nodes i) k) v) (nodes j) := fun j hj htj hji =>
    h.agree_other hi ht hj htj hji fun x _ hx _ =>
      Function.update_of_ne (Ne.symm (hx _ (blockSlot_lt hk))) _ _
  refine ⟨h.change hagree ?_ (fun _ => hf) fun _ => hs, h.files_change hi hagree⟩
  refine h.ledger.congr sb.datastart_le (fun b hb => ?_) fun j hj k' hk' => ?_
  · refine bitAt_congr (fun x hx => Function.update_of_ne ?_ _ _) hb
    have h1 : x < sb.datastart := hx.2
    have h2 : sb.datastart ≤ blockAddr m (nodes i) k := hrange.1
    omega
  · by_cases hji : j = i
    · subst hji
      unfold slotTable
      rw [Function.update_self, htype, hslots k']
    · exact slotTable_other hagree hj hji

/-- A new block gets a place, maybe in the indirect block. -/
theorem grow (h : Blocks sb m nodes) (hi : i < sb.ninodes) (ht : (nodes i).type ≠ 0)
    (hk : k < NSLOT) (h0 : slotAddr m (nodes i) k = 0) (hb : bitAt sb m b = false)
    (hbs : b < sb.size)
    (hbits : ∀ c < sb.size, bitAt sb m' c = if c = b then true else bitAt sb m c)
    (hm : ∀ x, sb.datastart ≤ x → x ≠ b → x ≠ (nodes i).addr NDIRECT → m' x = m x)
    (hslots : ∀ j, slotAddr m' d j = if j = k then b else slotAddr m (nodes i) j)
    (hd : d.type = (nodes i).type ∧ d.major = (nodes i).major ∧ d.minor = (nodes i).minor ∧
      d.nlink = (nodes i).nlink ∧ d.size = (nodes i).size) :
    Blocks sb m' (Function.update nodes i d) ∧
      filesIn sb m' (Function.update nodes i d) = filesIn sb m nodes := by
  obtain ⟨htype, hmajor, hminor, hnlink, hsize⟩ := hd
  have hagree : ∀ j < sb.ninodes, (nodes j).type ≠ 0 → j ≠ i → Agree m m' (nodes j) :=
    fun j hj htj hji => h.agree_other hi ht hj htj hji fun x hx hno hmark => by
      refine hm x hx (fun he => ?_) fun he => ?_
      · rw [he, hb] at hmark
        cases hmark
      · exact hno NDIRECT NDIRECT_lt (by rw [slotAddr_indirect, he])
  -- the blocks below the size had addresses before
  have hblock : ∀ k', k' * BSIZE < (nodes i).size.toNat →
      blockAddr m' d k' = blockAddr m (nodes i) k' := by
    intro k' hk'
    have hne := h.filled i hi ht k' hk'
    rw [blockAddr, hslots, if_neg fun he => hne (by rw [blockAddr, he, h0]), blockAddr]
  have hbytes : bytes m' d = bytes m (nodes i) := by
    unfold bytes
    rw [hsize]
    refine List.map_congr_left fun o ho => ?_
    have hlt : o / BSIZE * BSIZE < (nodes i).size.toNat :=
      Nat.lt_of_le_of_lt (Nat.div_mul_le_self _ _) (List.mem_range.mp ho)
    have hmax : o / BSIZE < MAXFILE :=
      Nat.lt_of_mul_lt_mul_right (Nat.lt_of_lt_of_le hlt (h.sizes i hi ht))
    have hne := h.filled i hi ht _ hlt
    have hslot := blockSlot_lt hmax
    have hind : blockAddr m (nodes i) (o / BSIZE) ≠ (nodes i).addr NDIRECT := fun he =>
      blockSlot_ne_indirect _ (h.slot_inj hi ht hslot hi ht NDIRECT_lt hne
        (he.trans (slotAddr_indirect m _).symm)).2
    have hsame : m' (blockAddr m (nodes i) (o / BSIZE)) = m (blockAddr m (nodes i) (o / BSIZE)) :=
      hm _ (h.slot_range hi ht hslot hne).1 (h.slot_ne hb hi ht hslot hne) hind
    rw [byteAt, byteAt, hblock _ hlt, hsame]
  refine ⟨h.change hagree ?_ (fun _ k' hk' => ?_) fun _ => ?_, ?_⟩
  · refine h.ledger.put hb hbs hi hk ?_ hbits fun j hj k' _ => ?_
    · rw [slotTable_of_type ht, h0]
    · by_cases hji : j = i
      · subst hji
        unfold slotTable
        rw [Function.update_self, htype, if_neg ht, if_neg ht, hslots]
        simp
      · rw [slotTable_other hagree hj hji, if_neg fun he => hji he.1]
  · rw [hsize] at hk'
    rw [hblock k' hk']
    exact h.filled i hi ht k' hk'
  · rw [hsize]
    exact h.sizes i hi ht
  · rw [h.files_change hi hagree, Function.update_eq_self_iff, filesIn, if_pos hi, fileOf, fileOf,
      htype, hmajor, hminor, hnlink, hbytes]

end Blocks

end Xv6.Fs
