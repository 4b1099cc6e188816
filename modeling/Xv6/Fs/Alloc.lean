import Xv6.Fs.Programs

/-!
# Allocating blocks

What `balloc` and `bmap` do to the blocks of the file system.  `bmap` changes the copy of
an inode in memory, and the caller stores it later, maybe with another size.  So its specification
is about the inodes on the disk with this copy in the place of one of them, for any size that the
caller has in mind (`opened`).
-/

namespace Xv6.Fs

open Bytes Hoare Census

variable {sb : Superblock} {s s' s'' : State} {ip : Ptr} {b i k n bn x : Nat} {m m' : Disk}
  {E : Stop → Prop} {nodes : Nat → Dinode}

/-! ## Steps -/

section Steps

variable {v : Block} {e : Inode} {Q : Unit → State → Prop}

@[simp] theorem disk_setBlock : (s.setBlock b v).disk = Function.update s.disk b v := rfl
@[simp] theorem itable_setBlock : (s.setBlock b v).itable = s.itable := rfl
@[simp] theorem itable_setInode : (s.setInode ip e).itable = Function.update s.itable ip e := rfl

@[simp] theorem wp_bread {Q : Block → State → Prop} : wp (bread b) Q E s ↔ Q (s.disk b) s := Iff.rfl

@[simp] theorem wp_inode {Q : Inode → State → Prop} : wp (inode ip) Q E s ↔ Q (s.itable ip) s :=
  Iff.rfl

@[simp] theorem wp_setData : wp (setData b v) Q E s ↔ Q () (s.setBlock b v) := Iff.rfl

@[simp] theorem wp_setInode : wp (setInode ip e) Q E s ↔ Q () (s.setInode ip e) := Iff.rfl

@[simp] theorem wp_setNode {f : Dinode → Dinode} : wp (setNode ip f) Q E s ↔
    Q () (s.setInode ip { s.itable ip with node := f (s.itable ip).node }) := Iff.rfl

end Steps

/-- Only the disk and the log changed. -/
structure Wrote (s s' : State) : Prop where
  itable : s'.itable = s.itable
  ops : s'.ops = s.ops

theorem Wrote.trans (h : Wrote s s') (h' : Wrote s' s'') : Wrote s s'' :=
  ⟨h'.itable.trans h.itable, h'.ops.trans h.ops⟩

section Store

variable (hE : ∀ l, E ⟨.tooBig, l⟩) (ho : 0 < s.ops.outstanding)

include hE ho

theorem log_write_spec : wp (log_write sb b) (fun _ s' => Wrote s s' ∧ s'.disk = s.disk) E s := by
  rw [log_write, wp_bind, wp_get]
  split
  · exact hE _
  · rw [if_neg (by omega)]
    split
    · exact ⟨⟨rfl, rfl⟩, rfl⟩
    · exact ⟨⟨rfl, rfl⟩, rfl⟩

theorem store_spec (v : Block) : wp (store sb b v) (fun _ s' => Wrote s s' ∧
    s'.disk = Function.update s.disk b v) E s := by
  rw [store, wp_bind, wp_setData]
  have h : wp (log_write sb b) _ E (s.setBlock b v) := log_write_spec hE ho
  exact h.mono fun _ s' hs => ⟨⟨hs.1.itable, hs.1.ops⟩, hs.2⟩

end Store

/-! ## The bitmap -/

/-- The disk after the block `b` is marked and zeroed. -/
def allocated (sb : Superblock) (m : Disk) (b : Nat) : Disk :=
  Function.update (Function.update m (sb.bblock b) (setBit (m (sb.bblock b)) (b % BPB) true)) b
    zeroBlock

/-- The number of blocks that are not marked. -/
def freeBlocks (sb : Superblock) (m : Disk) : Nat :=
  (List.range sb.size).countP fun b => !bitAt sb m b

theorem bitAt_allocated (hb : sb.datastart ≤ b) {c : Nat} (hc : c < sb.size) :
    bitAt sb (allocated sb m b) c = if c = b then true else bitAt sb m c := by
  have hcb := (sb.bblock_lt hc).2
  rw [← bitAt_setBit, bitAt, allocated, Function.update_of_ne (by omega), bitAt]

theorem allocated_of_ne (hb : b < sb.size) (hx : ¬ sb.Bits x) (hxb : x ≠ b) :
    allocated sb m b x = m x := by
  rw [allocated, Function.update_of_ne hxb, Function.update_of_ne]
  rintro rfl
  exact hx (sb.bblock_lt hb)

theorem not_bits_of_data (hx : sb.datastart ≤ x) : ¬ sb.Bits x := fun h =>
  absurd h.2 (by omega)

theorem not_bits_iblock (hi : i < sb.ninodes) : ¬ sb.Bits (sb.iblock i) := fun h =>
  absurd (sb.iblock_lt hi).2 (by have := h.1; omega)

theorem iblock_lt_data (hi : i < sb.ninodes) : sb.iblock i < sb.datastart := by
  have h1 := (sb.iblock_lt hi).2
  rw [Superblock.datastart]
  exact Nat.lt_of_lt_of_le h1 (by rw [Nat.add_assoc]; exact Nat.le_add_right _ _)

theorem inodeAt_congr (h : m' (sb.iblock i) = m (sb.iblock i)) :
    inodeAt sb m' i = inodeAt sb m i := by
  rw [inodeAt, h, inodeAt]

theorem inodeAt_allocated (hb : sb.datastart ≤ b) (hbs : b < sb.size) (hi : i < sb.ninodes) :
    inodeAt sb (allocated sb m b) i = inodeAt sb m i := by
  have hlt := iblock_lt_data hi
  exact inodeAt_congr (allocated_of_ne hbs (not_bits_iblock hi) (by omega))

theorem freeBlocks_eq_zero : freeBlocks sb m = 0 ↔ ∀ c < sb.size, bitAt sb m c = true := by
  simp [freeBlocks, List.countP_eq_zero]

theorem freeBlocks_congr (h : ∀ c < sb.size, bitAt sb m' c = bitAt sb m c) :
    freeBlocks sb m' = freeBlocks sb m :=
  List.countP_congr fun c hc => by rw [h c (List.mem_range.mp hc)]

theorem balloc_spec (hE : ∀ l, E ⟨.tooBig, l⟩) (ho : 0 < s.ops.outstanding) :
    wp (balloc sb) (fun b s' => (b = 0 ∧ s' = s ∧ freeBlocks sb s.disk = 0) ∨
      (Wrote s s' ∧ b < sb.size ∧ bitAt sb s.disk b = false ∧
        s'.disk = allocated sb s.disk b)) E s := by
  rw [balloc, wp_bind, wp_get]
  cases hf : (List.range sb.size).find? fun b => !bitAt sb s.disk b with
  | none =>
      refine .inl ⟨rfl, rfl, freeBlocks_eq_zero.mpr fun c hc => ?_⟩
      have := List.find?_eq_none.mp hf c (List.mem_range.mpr hc)
      simpa using this
  | some b =>
      have hlt : b < sb.size := List.mem_range.mp (List.mem_of_find?_eq_some hf)
      have hbit : bitAt sb s.disk b = false := by simpa using List.find?_some hf
      rw [wp_bind]
      refine (store_spec hE ho _).mono fun _ s₁ h₁ => ?_
      rw [wp_bind]
      refine (store_spec hE (by rw [h₁.1.ops]; exact ho) _).mono fun _ s₂ h₂ => ?_
      exact .inr ⟨h₁.1.trans h₂.1, hlt, hbit, by rw [h₂.2, h₁.2, allocated]⟩

/-! ## An inode in memory -/

/-- The inodes on the disk, with the copy of one of them in memory and the size `n`. -/
def opened (sb : Superblock) (s : State) (ip : Ptr) (n : Nat) : Nat → Dinode :=
  Function.update (inodeAt sb s.disk) (s.itable ip).inum ((s.itable ip).node.setSize n)

/-- The file of each inode, with the copy of one of them in memory. -/
def openFiles (sb : Superblock) (s : State) (ip : Ptr) (n : Nat) : Nat → Option File :=
  filesIn sb s.disk (opened sb s ip n)

/-- The copy of an allocated inode in memory agrees with the bitmap. -/
structure Open (sb : Superblock) (s : State) (ip : Ptr) (n : Nat) : Prop where
  lt : (s.itable ip).inum < sb.ninodes
  type : (s.itable ip).node.type ≠ 0
  blocks : Blocks sb s.disk (opened sb s ip n)

/-- Only the addresses of an inode in memory changed, and no inode on the disk. -/
structure Mapped (sb : Superblock) (s s' : State) (ip : Ptr) : Prop where
  itable : ∃ a, s'.itable = Function.update s.itable ip
    { s.itable ip with node := { (s.itable ip).node with addrs := a } }
  ops : s'.ops = s.ops
  inodes : ∀ i < sb.ninodes, inodeAt sb s'.disk i = inodeAt sb s.disk i

theorem Mapped.refl (sb : Superblock) (s : State) (ip : Ptr) : Mapped sb s s ip :=
  ⟨⟨(s.itable ip).node.addrs, (Function.update_eq_self ip s.itable).symm⟩, rfl, fun _ _ => rfl⟩

theorem Mapped.trans (h : Mapped sb s s' ip) (h' : Mapped sb s' s'' ip) : Mapped sb s s'' ip := by
  obtain ⟨a, ha⟩ := h.itable
  obtain ⟨a', ha'⟩ := h'.itable
  refine ⟨⟨a', ?_⟩, h'.ops.trans h.ops, fun i hi =>
    (h'.inodes i hi).trans (h.inodes i hi)⟩
  rw [ha', ha, Function.update_idem, Function.update_self]

/-- The fields of the inode that are not addresses. -/
theorem Mapped.self (h : Mapped sb s s' ip) : (s'.itable ip).inum = (s.itable ip).inum ∧
    (s'.itable ip).dev = (s.itable ip).dev ∧ (s'.itable ip).ref = (s.itable ip).ref ∧
    (s'.itable ip).node.type = (s.itable ip).node.type ∧
    (s'.itable ip).node.size = (s.itable ip).node.size := by
  obtain ⟨a, ha⟩ := h.itable
  rw [ha, Function.update_self]
  exact ⟨rfl, rfl, rfl, rfl, rfl⟩

theorem Blocks.nodes_congr {nodes' : Nat → Dinode} (h : Blocks sb m nodes)
    (hn : ∀ i < sb.ninodes, nodes' i = nodes i) :
    Blocks sb m nodes' ∧ filesIn sb m nodes' = filesIn sb m nodes := by
  refine ⟨⟨h.ledger.congr sb.datastart_le (fun _ _ => rfl) fun i hi k _ => ?_, fun i hi => ?_,
    fun i hi => ?_⟩, funext fun i => ?_⟩
  · rw [slotTable, hn i hi, slotTable]
  · rw [hn i hi]
    exact h.filled i hi
  · rw [hn i hi]
    exact h.sizes i hi
  · unfold filesIn
    split
    · rename_i hi
      rw [hn i hi]
    · rfl

/-- The inode in memory got other addresses. -/
theorem Open.of_blocks (h : Open sb s ip n) (hm : Mapped sb s s' ip)
    (hb : Blocks sb s'.disk (Function.update (opened sb s ip n) (s.itable ip).inum
      ((s'.itable ip).node.setSize n)) ∧
      filesIn sb s'.disk (Function.update (opened sb s ip n) (s.itable ip).inum
        ((s'.itable ip).node.setSize n)) = openFiles sb s ip n) :
    Open sb s' ip n ∧ openFiles sb s' ip n = openFiles sb s ip n := by
  obtain ⟨hinum, -, -, htype, -⟩ := hm.self
  have hn : ∀ i < sb.ninodes, opened sb s' ip n i = Function.update (opened sb s ip n)
      (s.itable ip).inum ((s'.itable ip).node.setSize n) i := by
    intro i hi
    rw [opened, opened, Function.update_idem, hinum]
    by_cases he : i = (s.itable ip).inum
    · subst he
      rw [Function.update_self, Function.update_self]
    · rw [Function.update_of_ne he, Function.update_of_ne he, hm.inodes i hi]
  obtain ⟨h1, h2⟩ := hb.1.nodes_congr hn
  exact ⟨⟨by rw [hinum]; exact h.lt, by rw [htype]; exact h.type, h1⟩, h2.trans hb.2⟩

@[simp] theorem opened_self : opened sb s ip n (s.itable ip).inum =
    (s.itable ip).node.setSize n := by
  rw [opened, Function.update_self]

/-! ## `bmap` -/

/-- What `bmap` and its parts leave as it was. -/
structure Attached (sb : Superblock) (s s' : State) (ip : Ptr) (n : Nat) : Prop where
  «open» : Open sb s' ip n
  files : openFiles sb s' ip n = openFiles sb s ip n
  mapped : Mapped sb s s' ip

theorem Attached.refl (h : Open sb s ip n) : Attached sb s s ip n := ⟨h, rfl, .refl sb s ip⟩

theorem Attached.trans (h : Attached sb s s' ip n) (h' : Attached sb s' s'' ip n) :
    Attached sb s s'' ip n := ⟨h'.open, h'.files.trans h.files, h.mapped.trans h'.mapped⟩

/-- An address in the inode is set to a new block. -/
theorem slotAddr_setAddr {d : Dinode} {a j : Nat} (hk : k ≤ NDIRECT) (h0 : d.addr k = 0)
    (hz : m a = zeroBlock) (ha : a < 2 ^ 32) :
    slotAddr m (d.setAddr k a) j = if j = k then a else slotAddr m d j := by
  rcases Nat.lt_or_eq_of_le hk with hlt | rfl
  · exact slotAddr_setAddr_direct hlt ha
  · exact slotAddr_setAddr_indirect h0 hz ha

/-- A new block is none of those that are owned. -/
theorem Blocks.agree_allocated (h : Blocks sb m nodes) (hbit : bitAt sb m b = false)
    (hlt : b < sb.size) (hi : i < sb.ninodes) (ht : (nodes i).type ≠ 0) :
    Agree m (allocated sb m b) (nodes i) := fun _ hk h0 =>
  allocated_of_ne hlt (not_bits_of_data (h.slot_range hi ht hk h0).1) (h.slot_ne hbit hi ht hk h0)

/-- A new block gets a place among the addresses in the inode. -/
theorem Open.attach (h : Open sb s ip n) (hk : k ≤ NDIRECT) (h0 : (s.itable ip).node.addr k = 0)
    (hlt : b < sb.size) (hbit : bitAt sb s.disk b = false) (hdisk : s'.disk = allocated sb s.disk b)
    (hout : s'.ops = s.ops)
    (hit : s'.itable = Function.update s.itable ip
      { s.itable ip with node := (s.itable ip).node.setAddr k b }) :
    Attached sb s s' ip n := by
  have hdata : sb.datastart ≤ b := h.blocks.ledger.le_of_unmarked hbit
  have hsize := sb.size_lt
  have h32 : b < 2 ^ 32 := by omega
  have hzero : s'.disk b = zeroBlock := by rw [hdisk, allocated, Function.update_self]
  have hnode : (s'.itable ip).node = (s.itable ip).node.setAddr k b := by
    rw [hit, Function.update_self]
  have hself : opened sb s ip n (s.itable ip).inum = (s.itable ip).node.setSize n := opened_self
  have ht : (opened sb s ip n (s.itable ip).inum).type ≠ 0 := by
    rw [hself]
    exact h.type
  have hm : Mapped sb s s' ip := by
    refine ⟨⟨((s.itable ip).node.setAddr k b).addrs, hit⟩, hout, fun i hi => ?_⟩
    rw [hdisk, inodeAt_allocated hdata hlt hi]
  have hslots : ∀ j, slotAddr s'.disk ((s'.itable ip).node.setSize n) j =
      if j = k then b else slotAddr s.disk (opened sb s ip n (s.itable ip).inum) j := by
    intro j
    have hagree := h.blocks.agree_allocated hbit hlt h.lt ht
    rw [slotAddr_setSize, hnode, slotAddr_setAddr hk h0 hzero h32, ← hagree.slotAddr, hdisk, hself,
      slotAddr_setSize]
  have hfields : ((s'.itable ip).node.setSize n).type = (opened sb s ip n (s.itable ip).inum).type ∧
      ((s'.itable ip).node.setSize n).major = (opened sb s ip n (s.itable ip).inum).major ∧
      ((s'.itable ip).node.setSize n).minor = (opened sb s ip n (s.itable ip).inum).minor ∧
      ((s'.itable ip).node.setSize n).nlink = (opened sb s ip n (s.itable ip).inum).nlink ∧
      ((s'.itable ip).node.setSize n).size = (opened sb s ip n (s.itable ip).inum).size := by
    rw [hself, hnode]
    exact ⟨rfl, rfl, rfl, rfl, rfl⟩
  have hslot : slotAddr s.disk (opened sb s ip n (s.itable ip).inum) k = 0 := by
    rw [hself, slotAddr_setSize, slotAddr, if_pos hk, h0]
  obtain ⟨h1, h2⟩ := h.of_blocks hm (h.blocks.grow h.lt ht (Nat.lt_of_le_of_lt hk NDIRECT_lt) hslot
    hbit hlt (fun c hc => by rw [hdisk, bitAt_allocated hdata hc])
    (fun x hx hxb _ => by rw [hdisk, allocated_of_ne hlt (not_bits_of_data hx) hxb]) hslots hfields)
  exact ⟨h1, h2, hm⟩

/-- A new block gets a place in the indirect block. -/
theorem Open.attachEntry (h : Open sb s ip n) (h0 : (s.itable ip).node.addr NDIRECT ≠ 0)
    (hj : k < NINDIRECT) (hzero : getUint (s.disk ((s.itable ip).node.addr NDIRECT)) k = 0)
    (hlt : b < sb.size) (hbit : bitAt sb s.disk b = false)
    (hdisk : s'.disk = Function.update (allocated sb s.disk b) ((s.itable ip).node.addr NDIRECT)
      (setUint (allocated sb s.disk b ((s.itable ip).node.addr NDIRECT)) k b))
    (hout : s'.ops = s.ops) (hit : s'.itable = s.itable) :
    Attached sb s s' ip n ∧ slotAddr s'.disk (s'.itable ip).node (NDIRECT + 1 + k) = b := by
  have hdata : sb.datastart ≤ b := h.blocks.ledger.le_of_unmarked hbit
  have hsize := sb.size_lt
  have h32 : b < 2 ^ 32 := by omega
  have hself : opened sb s ip n (s.itable ip).inum = (s.itable ip).node.setSize n := opened_self
  have ht : (opened sb s ip n (s.itable ip).inum).type ≠ 0 := by
    rw [hself]
    exact h.type
  have hind : sb.datastart ≤ (s.itable ip).node.addr NDIRECT :=
    (h.blocks.indirect_range h.lt ht (by rw [hself]; exact h0)).1.trans (by rw [hself]; rfl)
  have hbits : ∀ c < sb.size, bitAt sb s'.disk c = if c = b then true else bitAt sb s.disk c := by
    intro c hc
    rw [← bitAt_allocated hdata hc, hdisk]
    refine bitAt_congr (fun x hx => Function.update_of_ne ?_ _ _) hc
    have := hx.2
    omega
  have hm : Mapped sb s s' ip := by
    refine ⟨⟨(s.itable ip).node.addrs, ?_⟩, hout, fun i hi => ?_⟩
    · rw [hit]
      exact (Function.update_eq_self ip s.itable).symm
    · have hi' := iblock_lt_data hi
      refine Eq.trans (inodeAt_congr ?_) (inodeAt_allocated hdata hlt hi)
      rw [hdisk, Function.update_of_ne (by omega)]
  have hslots : ∀ j, slotAddr s'.disk ((s'.itable ip).node.setSize n) j =
      if j = NDIRECT + 1 + k then b
      else slotAddr s.disk (opened sb s ip n (s.itable ip).inum) j := by
    intro j
    have hagree := h.blocks.agree_allocated hbit hlt h.lt ht
    rw [slotAddr_setSize, hit, hdisk, slotAddr_setUint h0 hj h32, ← hagree.slotAddr, hself,
      slotAddr_setSize]
  have hslot : slotAddr s.disk (opened sb s ip n (s.itable ip).inum) (NDIRECT + 1 + k) = 0 := by
    rw [hself, slotAddr_setSize, slotAddr, if_neg (by omega), if_neg h0, Nat.add_sub_cancel_left,
      hzero]
  have hk : NDIRECT + 1 + k < NSLOT := Nat.add_lt_add_left hj _
  obtain ⟨h1, h2⟩ := h.of_blocks hm (h.blocks.grow h.lt ht hk hslot hbit hlt hbits
    (fun x hx hxb hxi => by
      rw [hself, Dinode.addr_setSize] at hxi
      rw [hdisk, Function.update_of_ne hxi, allocated_of_ne hlt (not_bits_of_data hx) hxb])
    hslots (by rw [hself, hit]; exact ⟨rfl, rfl, rfl, rfl, rfl⟩))
  refine ⟨⟨h1, h2, hm⟩, ?_⟩
  rw [← slotAddr_setSize _ _ n, hslots, if_pos rfl]

section Bmap

variable (hE : ∀ l, E ⟨.tooBig, l⟩) (ho : 0 < s.ops.outstanding)

include hE ho

theorem addrAlloc_spec (h : Open sb s ip n) (hk : k ≤ NDIRECT) :
    wp (addrAlloc sb ip k) (fun r s' => Attached sb s s' ip n ∧
      (s'.itable ip).node.addr k = r ∧ (r = 0 → s' = s ∧ freeBlocks sb s.disk = 0)) E s := by
  rw [addrAlloc, wp_bind, wp_inode]
  split
  · rename_i h0
    rw [wp_bind]
    refine (balloc_spec hE ho).mono ?_
    rintro b s' (⟨rfl, rfl, hfull⟩ | ⟨hw, hlt, hbit, hdisk⟩)
    · exact ⟨.refl h, h0, fun _ => ⟨rfl, hfull⟩⟩
    · have hdata : sb.datastart ≤ b := h.blocks.ledger.le_of_unmarked hbit
      have hpos := h.blocks.ledger.pos
      have hsize := sb.size_lt
      rw [if_neg (by omega), wp_bind, wp_setNode, wp_pure]
      refine ⟨h.attach hk h0 hlt hbit hdisk hw.ops (by rw [itable_setInode, hw.itable]), ?_,
        fun hb => absurd hb (by omega)⟩
      rw [itable_setInode, Function.update_self]
      exact (Dinode.addr_setAddr hk (by omega)).trans (if_pos rfl)
  · rename_i h0
    exact ⟨.refl h, rfl, fun hr => absurd hr h0⟩

theorem entryAlloc_spec (h : Open sb s ip n) (h0 : (s.itable ip).node.addr NDIRECT ≠ 0)
    (hk : k < NINDIRECT) :
    wp (entryAlloc sb ((s.itable ip).node.addr NDIRECT) k) (fun r s' => Attached sb s s' ip n ∧
      slotAddr s'.disk (s'.itable ip).node (NDIRECT + 1 + k) = r ∧
      (r = 0 → s' = s ∧ freeBlocks sb s.disk = 0)) E s := by
  have hentry : slotAddr s.disk (s.itable ip).node (NDIRECT + 1 + k) =
      getUint (s.disk ((s.itable ip).node.addr NDIRECT)) k := by
    rw [slotAddr, if_neg (by omega), if_neg h0, Nat.add_sub_cancel_left]
  rw [entryAlloc, wp_bind, wp_bread]
  split
  · rename_i hz
    rw [wp_bind]
    refine (balloc_spec hE ho).mono ?_
    rintro b s' (⟨rfl, rfl, hfull⟩ | ⟨hw, hlt, hbit, hdisk⟩)
    · exact ⟨.refl h, hentry.trans hz, fun _ => ⟨rfl, hfull⟩⟩
    · have hdata : sb.datastart ≤ b := h.blocks.ledger.le_of_unmarked hbit
      have hpos := h.blocks.ledger.pos
      rw [if_neg (by omega), wp_bind, wp_bread, wp_bind]
      refine (store_spec hE (by rw [hw.ops]; exact ho) _).mono fun _ s'' hs => ?_
      obtain ⟨h1, h2⟩ := h.attachEntry h0 hk hz hlt hbit (by rw [hs.2, hdisk])
        (hw.trans hs.1).ops (hw.trans hs.1).itable
      exact ⟨h1, h2, fun hb => absurd hb (by omega)⟩
  · rename_i hz
    exact ⟨.refl h, hentry, fun hr => absurd hr hz⟩

/-- `bmap` returns the address of a block of the inode in memory, and 0 if the disk is full. -/
theorem bmap_spec (h : Open sb s ip n) (hbn : bn < MAXFILE) :
    wp (bmap sb ip bn) (fun r s' => Attached sb s s' ip n ∧
      blockAddr s'.disk (s'.itable ip).node bn = r ∧ (r = 0 → freeBlocks sb s'.disk = 0)) E s := by
  rw [bmap]
  split
  · rename_i hd
    refine (addrAlloc_spec hE ho h hd.le).mono fun r s' hs => ?_
    obtain ⟨hatt, haddr, hfull⟩ := hs
    refine ⟨hatt, (blockAddr_direct hd).trans haddr, fun hr => ?_⟩
    obtain ⟨rfl, hf⟩ := hfull hr
    exact hf
  · rename_i hd
    have hin : bn - NDIRECT < NINDIRECT := by
      rw [MAXFILE] at hbn
      omega
    have hslot : ∀ m d, blockAddr m d bn = slotAddr m d (NDIRECT + 1 + (bn - NDIRECT)) := by
      intro m d
      rw [blockAddr, blockSlot, if_neg hd]
      congr 1
      omega
    rw [if_pos hin, wp_bind]
    refine (addrAlloc_spec hE ho h le_rfl).mono fun ind s₁ h₁ => ?_
    obtain ⟨hatt, haddr, hfull⟩ := h₁
    split
    · rename_i h0
      obtain ⟨rfl, hf⟩ := hfull h0
      have hzero : blockAddr s₁.disk (s₁.itable ip).node bn = 0 := by
        rw [hslot, slotAddr, if_neg (by omega), if_pos (haddr.trans h0)]
      exact ⟨hatt, hzero, fun _ => hf⟩
    · rename_i h0
      subst haddr
      refine (entryAlloc_spec hE (by rw [hatt.mapped.ops]; exact ho) hatt.open h0 hin).mono
        fun r s₂ h₂ => ?_
      obtain ⟨hatt₂, haddr₂, hfull₂⟩ := h₂
      refine ⟨hatt.trans hatt₂, (hslot _ _).trans haddr₂, fun hr => ?_⟩
      obtain ⟨rfl, hf⟩ := hfull₂ hr
      exact hf

end Bmap

/-- A block with an address: nothing is allocated. -/
theorem wp_bmap_of_addr {Q : Nat → State → Prop} (hbn : bn < MAXFILE)
    (h0 : blockAddr s.disk (s.itable ip).node bn ≠ 0) :
    wp (bmap sb ip bn) Q E s ↔ Q (blockAddr s.disk (s.itable ip).node bn) s := by
  rw [bmap]
  by_cases hd : bn < NDIRECT
  · rw [blockAddr_direct hd] at h0 ⊢
    rw [if_pos hd, addrAlloc, wp_bind, wp_inode, if_neg h0, wp_pure]
  · have hin : bn - NDIRECT < NINDIRECT := by
      rw [MAXFILE] at hbn
      omega
    have hind : (s.itable ip).node.addr NDIRECT ≠ 0 := by
      intro hz
      rw [blockAddr, blockSlot, if_neg hd, slotAddr, if_neg (by omega), if_pos hz] at h0
      exact h0 rfl
    rw [blockAddr_indirect (Nat.le_of_not_lt hd) hind] at h0 ⊢
    rw [if_neg hd, if_pos hin, wp_bind, addrAlloc, wp_bind, wp_inode, if_neg hind, wp_pure,
      if_neg hind, entryAlloc, wp_bind, wp_bread, if_neg h0, wp_pure]

end Xv6.Fs
