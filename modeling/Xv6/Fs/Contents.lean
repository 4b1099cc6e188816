import Xv6.Fs.Invariant

/-!
# Files as byte arrays

`readi` and `writei` go over the blocks of a file.  A step of `readi` appends the bytes of one
block, and a step of `writei` replaces bytes in one block, which may be new.  While `writei` runs
the size of the inode is behind, so the file is taken with the size that it has at the end of the
bytes written so far.
-/

namespace Xv6.Fs

open Bytes Hoare Census

variable {sb : Superblock} {s s' : State} {ip : Ptr} {off tot fuel i k m n N : Nat}
  {E : Stop → Prop} {dst : Dst} {src : Src} {d : Dinode} {w : List UInt8} {f : File}

/-! ## Buffers -/

/-- All bytes can be stored. -/
theorem copyout_all {bs : List UInt8} (h : ∀ k < bs.length, dst (i + k) = true) :
    copyout dst i bs = bs := by
  rw [copyout, List.takeWhile_eq_self_iff.mpr fun k hk => h k (List.mem_range.mp hk),
    List.length_range, List.take_length]

theorem length_copyin_le : (copyin src i m).length ≤ m := by
  refine (List.length_filterMap_le ..).trans ((List.takeWhile_sublist _).length_le.trans ?_)
  simp

/-- The bytes of a buffer. -/
def srcBytes (src : Src) (n : Nat) : List UInt8 := (List.range n).map fun k => (src k).getD 0

@[simp] theorem length_srcBytes : (srcBytes src n).length = n := by simp [srcBytes]

/-- All bytes can be loaded. -/
theorem copyin_all (h : ∀ k < n, (src k).isSome) (hm : i + m ≤ n) :
    copyin src i m = ((srcBytes src n).drop i).take m := by
  have hsome : ∀ k < m, src (i + k) = some ((src (i + k)).getD 0) := fun k hk => by
    obtain ⟨v, hv⟩ := Option.isSome_iff_exists.mp (h (i + k) (by omega))
    rw [hv, Option.getD_some]
  have hmap : (List.range m).map (fun k => src (i + k)) =
      (List.range m).map fun k => some ((src (i + k)).getD 0) :=
    List.map_congr_left fun k hk => hsome k (List.mem_range.mp hk)
  rw [copyin, hmap, List.takeWhile_eq_self_iff.mpr (by simp), List.filterMap_map]
  refine List.ext_getElem? fun k => ?_
  by_cases hk : k < m
  · simp [srcBytes, hk, List.getElem?_drop, show i + k < n by omega]
  · simp [srcBytes, hk]

/-! ## Contents -/

/-- A file with the fields of an inode. -/
def Dinode.file (d : Dinode) (data : List UInt8) : File := ⟨d.type, d.major, d.minor, d.nlink, data⟩

theorem openFiles_self (h : Open sb s ip n) : openFiles sb s ip n (s.itable ip).inum =
    some ((s.itable ip).node.file (bytes s.disk ((s.itable ip).node.setSize n))) := by
  rw [openFiles, filesIn, if_pos h.lt, opened_self, fileOf]
  exact if_neg h.type

/-- A file with a smaller size. -/
theorem bytes_setSize (h : n ≤ N) (hN : N < 2 ^ 32) (m : Disk) :
    bytes m (d.setSize n) = (bytes m (d.setSize N)).take n := by
  refine List.ext_getElem? fun o => ?_
  rw [List.getElem?_take, getElem?_bytes, getElem?_bytes, Dinode.size_setSize _ (by omega),
    Dinode.size_setSize _ hN]
  split
  · rw [if_pos (by omega)]
    rfl
  · rfl

/-- The bytes of a file in one block. -/
theorem read_block (hfit : off % BSIZE + k ≤ BSIZE) (hend : off + k ≤ d.size.toNat) (m : Disk) :
    (m (blockAddr m d (off / BSIZE))).read (off % BSIZE) k = ((bytes m d).drop off).take k := by
  refine List.ext_getElem? fun j => ?_
  rw [Region.getElem?_read, List.getElem?_take, List.getElem?_drop, getElem?_bytes]
  split
  · rename_i hj
    have hB := BSIZE_eq
    rw [hB] at hfit
    have h1 : off % BSIZE = off % 1024 := rfl
    have hdiv : (off + j) / BSIZE = off / BSIZE := by rw [hB]; omega
    have hmod : (off + j) % BSIZE = off % BSIZE + j := by
      rw [h1, show (off + j) % BSIZE = (off + j) % 1024 from rfl]
      omega
    rw [if_pos (by omega), byteAt, hdiv, hmod]
  · rfl

/-- Two pieces one after the other. -/
theorem splice_splice {data w w' : List UInt8} (h : off ≤ data.length) :
    splice (splice data off w) (off + w.length) w' = splice data off (w ++ w') := by
  have hlen := length_splice (w := w) h
  refine List.ext_getElem? fun o => ?_
  rw [getElem?_splice (by omega), getElem?_splice h, getElem?_splice h, List.length_append]
  by_cases h1 : o < off
  · rw [if_pos (by omega), if_pos h1, if_pos h1]
  · rw [if_neg h1, if_neg h1]
    by_cases h2 : o < off + w.length
    · rw [if_pos h2, if_pos h2, if_pos (by omega), List.getElem?_append_left (by omega)]
    · rw [if_neg h2, if_neg h2]
      by_cases h3 : o < off + w.length + w'.length
      · rw [if_pos h3, if_pos (by omega), List.getElem?_append_right (by omega)]
        congr 1
        omega
      · rw [if_neg h3, if_neg (by omega)]

/-! ## `readi` -/

/-- The loop of `readi` changes nothing, and stores the bytes of the file. -/
theorem readLoop_spec (hf : Filled s.disk (s.itable ip).node)
    (hs : (s.itable ip).node.size.toNat ≤ MAXFILE * BSIZE) (hfuel : n ≤ tot + fuel) (htot : tot ≤ n)
    (hend : off + (n - tot) ≤ (s.itable ip).node.size.toNat) :
    wp (readLoop sb ip dst fuel off tot n) (fun r s' => s' = s ∧
      ((∀ k < n, dst k = true) →
        r = ((n : Int), ((bytes s.disk (s.itable ip).node).drop off).take (n - tot)))) E s := by
  induction fuel generalizing off tot with
  | zero =>
      obtain rfl : tot = n := by omega
      exact ⟨rfl, fun _ => by rw [Nat.sub_self, List.take_zero]⟩
  | succ fuel ih =>
      rw [readLoop]
      split
      · rename_i hlt
        have hB := BSIZE_eq
        have hmod : off % BSIZE < BSIZE := Nat.mod_lt _ (by decide)
        have hblock : off / BSIZE < MAXFILE := Nat.div_lt_of_lt_mul (by rw [Nat.mul_comm]; omega)
        have h0 : blockAddr s.disk (s.itable ip).node (off / BSIZE) ≠ 0 := hf.at (by omega)
        rw [wp_bind, wp_bmap_of_addr hblock h0, if_neg h0, wp_bind, wp_bread]
        generalize hm : min (n - tot) (BSIZE - off % BSIZE) = m
        have hm0 : 0 < m := by omega
        have hread : (s.disk (blockAddr s.disk (s.itable ip).node (off / BSIZE))).read
            (off % BSIZE) m = ((bytes s.disk (s.itable ip).node).drop off).take m :=
          read_block (by omega) (by omega) _
        simp only [hread]
        have hlen : (((bytes s.disk (s.itable ip).node).drop off).take m).length = m := by
          rw [List.length_take, List.length_drop, length_bytes]
          omega
        split
        · rename_i hshort
          refine ⟨rfl, fun hdst => ?_⟩
          rw [copyout_all fun k hk => hdst _ (by omega), hlen] at hshort
          omega
        · rw [wp_bind]
          refine (ih (by omega) (by omega) (by omega)).mono fun r s' hr => ?_
          obtain ⟨rfl, hr⟩ := hr
          refine ⟨rfl, fun hdst => ?_⟩
          rw [hr hdst, copyout_all fun k hk => hdst _ (by omega)]
          refine Prod.ext rfl ?_
          show _ ++ _ = _
          rw [← List.drop_drop, ← List.take_add]
          congr 1
          omega
      · rename_i hge
        obtain rfl : tot = n := by omega
        exact ⟨rfl, fun _ => by rw [Nat.sub_self, List.take_zero]⟩

/-- The bytes that `readi` returns. -/
def readBytes (data : List UInt8) (off n : Nat) : List UInt8 :=
  if off + n < 2 ^ 32 then (data.drop off).take n else []

theorem wrap_iff (hoff : off < 2 ^ 32) (hn : n < 2 ^ 32) :
    (off + n) % 2 ^ 32 < off ↔ 2 ^ 32 ≤ off + n := by
  omega

theorem readi_spec (hf : Filled s.disk (s.itable ip).node)
    (hs : (s.itable ip).node.size.toNat ≤ MAXFILE * BSIZE) (hoff : off < 2 ^ 32) (hn : n < 2 ^ 32) :
    wp (readi sb ip dst off n) (fun r s' => s' = s ∧ ((∀ k < n, dst k = true) →
      r.2 = readBytes (bytes s.disk (s.itable ip).node) off n ∧ r.1 = r.2.length)) E s := by
  have hlen := length_bytes s.disk (s.itable ip).node
  rw [readi, wp_bind, wp_inode]
  simp only [wrap_iff hoff hn]
  split
  · rename_i hcase
    refine ⟨rfl, fun _ => ⟨?_, rfl⟩⟩
    rw [readBytes]
    split
    · rw [List.drop_of_length_le (by omega), List.take_nil]
    · rfl
  · rename_i hcase
    push Not at hcase
    have hmod : (off + n) % 2 ^ 32 = off + n := Nat.mod_eq_of_lt hcase.2
    rw [hmod, readBytes, if_pos hcase.2]
    generalize hn' : (if (s.itable ip).node.size.toNat < off + n then
      (s.itable ip).node.size.toNat - off else n) = n'
    have hle : n' ≤ n ∧ off + n' ≤ (s.itable ip).node.size.toNat ∧
        (n' = n ∨ off + n' = (s.itable ip).node.size.toNat) := by
      split at hn' <;> omega
    refine (readLoop_spec hf hs (Nat.le_add_left ..) (Nat.zero_le _) (by omega)).mono
      fun r s' hr => ⟨hr.1, fun hdst => ?_⟩
    have htake : ((bytes s.disk (s.itable ip).node).drop off).take n' =
        ((bytes s.disk (s.itable ip).node).drop off).take n := by
      rcases hle.2.2 with rfl | hend
      · rfl
      · rw [List.take_of_length_le, List.take_of_length_le]
        · rw [List.length_drop]
          omega
        · rw [List.length_drop]
          omega
    rw [hr.2 fun k hk => hdst k (by omega), Nat.sub_zero, htake]
    refine ⟨rfl, ?_⟩
    rw [← htake, List.length_take, List.length_drop, hlen, Nat.min_eq_left (by omega)]

/-! ## `writei` -/

/-- Bytes are stored in one block of a file, and its size goes up to the end of some of them. -/
theorem Open.store (h : Open sb s ip N) (hoff : off ≤ N) (hlt : off < MAXFILE * BSIZE)
    (hfit : off % BSIZE + w.length ≤ BSIZE) (hmax : off + w.length ≤ MAXFILE * BSIZE)
    (h0 : blockAddr s.disk (s.itable ip).node (off / BSIZE) ≠ 0) (hn : N ≤ n)
    (hn' : n ≤ max N (off + w.length)) (hN : N ≤ MAXFILE * BSIZE)
    (hdisk : s'.disk = Function.update s.disk (blockAddr s.disk (s.itable ip).node (off / BSIZE))
      ((s.disk (blockAddr s.disk (s.itable ip).node (off / BSIZE))).write (off % BSIZE) w))
    (hit : s'.itable = s.itable) (hf : openFiles sb s ip N (s.itable ip).inum = some f) :
    Open sb s' ip n ∧ openFiles sb s' ip n = Function.update (openFiles sb s ip N)
      (s.itable ip).inum (some { f with data := (splice f.data off w).take n }) := by
  have hB := BSIZE_eq
  have hM : MAXFILE * BSIZE = 274432 := rfl
  have hself : opened sb s ip N (s.itable ip).inum = (s.itable ip).node.setSize N := opened_self
  have ht : (opened sb s ip N (s.itable ip).inum).type ≠ 0 := by
    rw [hself]
    exact h.type
  have hk : off / BSIZE < MAXFILE := Nat.div_lt_of_lt_mul (by rw [Nat.mul_comm]; exact hlt)
  have hfilled := h.blocks.filled _ h.lt ht
  rw [hself] at hfilled
  have haddr : ∀ n, blockAddr s.disk ((s.itable ip).node.setSize n) (off / BSIZE) =
      blockAddr s.disk (s.itable ip).node (off / BSIZE) := fun n => rfl
  generalize hx : blockAddr s.disk (s.itable ip).node (off / BSIZE) = x at h0 hdisk
  -- the block stands at one place
  have hone : ∀ j < NSLOT, slotAddr s.disk ((s.itable ip).node.setSize N) j = x →
      j = blockSlot (off / BSIZE) := by
    intro j hj he
    refine (h.blocks.slot_inj h.lt ht (blockSlot_lt hk) h.lt ht hj ?_ ?_).2.symm
    · rw [hself]
      exact fun hz => h0 (hx.symm.trans hz)
    · rw [hself, he]
      exact hx
  have hind : (s.itable ip).node.addr NDIRECT ≠ 0 → (s.itable ip).node.addr NDIRECT ≠ x := by
    intro _ he
    exact blockSlot_ne_indirect _ (hone NDIRECT NDIRECT_lt (by
      rw [slotAddr_indirect]
      exact he)).symm
  have hslots : ∀ j, slotAddr s'.disk (s.itable ip).node j = slotAddr s.disk (s.itable ip).node j :=
    fun j => by rw [hdisk, slotAddr_update hind]
  have hsize : ((s.itable ip).node.setSize N).size.toNat = N := Dinode.size_setSize _ (by omega)
  have hn32 : n < 2 ^ 32 := by omega
  have hfilled' : Filled s'.disk ((s.itable ip).node.setSize n) := by
    intro j hj
    rw [Dinode.size_setSize _ hn32] at hj
    rw [blockAddr, slotAddr_setSize, hslots]
    by_cases hjN : j * BSIZE < N
    · exact hfilled j (by rw [hsize]; exact hjN)
    · obtain rfl : j = off / BSIZE := by
        rw [hB] at hj hjN hfit ⊢
        have : off % BSIZE = off % 1024 := rfl
        omega
      rw [← blockAddr, hx]
      exact h0
  have hbytes : bytes s'.disk ((s.itable ip).node.setSize n) =
      (splice (bytes s.disk ((s.itable ip).node.setSize N)) off w).take n := by
    have hx' : blockAddr s.disk ((s.itable ip).node.setSize N) (off / BSIZE) = x := hx
    have hw := bytes_write (by rw [hsize]; exact hoff) hfit hmax (by rw [hsize]; exact hN) hx' hone
    rw [hsize] at hw
    rw [← hw, hdisk]
    exact bytes_setSize hn' (by omega) _
  have hw := h.blocks.write h.lt ht hk (d := (s.itable ip).node.setSize n)
    (v := (s.disk x).write (off % BSIZE) w) (by rw [hself, haddr, hx]; exact h0)
    (by rw [hself, haddr, hx, ← hdisk]; exact hslots) (by rw [hself]; rfl)
    (by rw [hself, haddr, hx, ← hdisk]; exact hfilled')
    (by rw [Dinode.size_setSize _ hn32]; omega)
  rw [hself, haddr, hx, ← hdisk] at hw
  have hrange := (h.blocks.slot_range h.lt ht (blockSlot_lt hk) (by
    rw [hself]
    exact fun hz => h0 (hx.symm.trans hz))).1
  rw [hself] at hrange
  have hxdata : sb.datastart ≤ x := by
    rw [← hx]
    exact hrange
  have hnodes : ∀ i < sb.ninodes, opened sb s' ip n i = Function.update (opened sb s ip N)
      (s.itable ip).inum ((s.itable ip).node.setSize n) i := by
    intro i hi
    have hlt := iblock_lt_data hi
    rw [opened, opened, Function.update_idem, hit]
    by_cases he : i = (s.itable ip).inum
    · subst he
      rw [Function.update_self, Function.update_self]
    · rw [Function.update_of_ne he, Function.update_of_ne he]
      refine inodeAt_congr ?_
      rw [hdisk, Function.update_of_ne (by omega)]
  obtain ⟨h1, h2⟩ := hw.1.nodes_congr hnodes
  refine ⟨⟨by rw [hit]; exact h.lt, by rw [hit]; exact h.type, h1⟩, ?_⟩
  obtain rfl : (s.itable ip).node.file (bytes s.disk ((s.itable ip).node.setSize N)) = f :=
    Option.some.inj ((openFiles_self h).symm.trans hf)
  rw [openFiles, h2, hw.2, ← openFiles, fileOf, hbytes]
  congr 1
  exact if_neg h.type

/-- The size of a file. -/
theorem Open.length_data (h : Open sb s ip N) (hN : N < 2 ^ 32)
    (hf : openFiles sb s ip N (s.itable ip).inum = some f) : f.data.length = N := by
  obtain rfl := Option.some.inj ((openFiles_self h).symm.trans hf)
  exact (length_bytes ..).trans (Dinode.size_setSize _ hN)

/-- The data blocks changed, and the inode in memory only in its addresses. -/
theorem Dirty.mapped (h : Dirty sb s ip N) (hm : Mapped sb s s' ip) (ho : Open sb s' ip n) :
    Dirty sb s' ip n :=
  ⟨ho, hm.nodeOnly.loaded h.toLoaded,
    h.table.nodeOnly hm.nodeOnly h.ref fun i hi _ => hm.inodes i hi⟩

theorem splice_nil (data : List UInt8) : splice data off [] = data := by
  simp [splice]

/-- What the loop of `writei` does after `tot` bytes, if it stops after `r` of `n` bytes.  The bytes
`w` are stored, and those that count are in the file. -/
structure Written (sb : Superblock) (s s' : State) (ip : Ptr) (src : Src) (N off tot n r : Nat)
    (f : File) : Prop where
  ge : tot ≤ r
  le : r ≤ n
  mapped : Mapped sb s s' ip
  dirty : Dirty sb s' ip (max N (off + (r - tot)))
  data : ∃ w : List UInt8,
    openFiles sb s' ip (max N (off + (r - tot))) = Function.update (openFiles sb s ip N)
      (s.itable ip).inum
      (some { f with data := (splice f.data off w).take (max N (off + (r - tot))) }) ∧
    ((∀ k < n, (src k).isSome) → w = ((srcBytes src n).drop tot).take (r - tot) ∧
      (r < n → freeBlocks sb s'.disk = 0))

section Write

variable {f : File} {r : Nat}

/-- No byte counts. -/
theorem Written.none (h : Dirty sb s' ip N) (hm : Mapped sb s s' ip) (hoff : off ≤ N)
    (htot : tot ≤ n) (hfiles : openFiles sb s' ip N = Function.update (openFiles sb s ip N)
      (s.itable ip).inum (some { f with data := (splice f.data off w).take N }))
    (hsrc : (∀ k < n, (src k).isSome) → w = [] ∧ (tot < n → freeBlocks sb s'.disk = 0)) :
    Written sb s s' ip src N off tot n tot f := by
  have hmax : max N (off + (tot - tot)) = N := by omega
  refine ⟨le_rfl, htot, hm, by rw [hmax]; exact h, ⟨w, by rw [hmax]; exact hfiles, fun hall => ?_⟩⟩
  rw [Nat.sub_self, List.take_zero]
  exact hsrc hall

/-- All bytes were written before. -/
theorem Written.done (h : Dirty sb s ip N) (hoff : off ≤ N)
    (hf : openFiles sb s ip N (s.itable ip).inum = some f) (hN : N < 2 ^ 32) :
    Written sb s s ip src N off n n n f := by
  refine .none (w := []) h (.refl sb s ip) hoff le_rfl ?_ fun _ =>
    ⟨rfl, fun hlt => absurd hlt (Nat.lt_irrefl _)⟩
  rw [splice_nil, List.take_of_length_le (h.toOpen.length_data hN hf).le]
  exact (Function.update_eq_self_iff.mpr hf.symm).symm

/-- A chunk of bytes, and then the rest. -/
theorem Written.next {s₁ : State} {f₁ : File} (h : Written sb s₁ s' ip src (max N (off + m))
      (off + m) (tot + m) n r f₁) (hm : Mapped sb s s₁ ip) (hw : w.length = m)
    (hoff : off ≤ f.data.length)
    (hsrc : (∀ k < n, (src k).isSome) → w = ((srcBytes src n).drop tot).take m)
    (hf : f₁ = { f with data := splice f.data off w })
    (hfiles : openFiles sb s₁ ip (max N (off + m)) =
      Function.update (openFiles sb s ip N) (s.itable ip).inum (some f₁)) :
    Written sb s s' ip src N off tot n r f := by
  obtain ⟨hge, hle, hmap, hdirty, ⟨w', hdata, hall⟩⟩ := h
  have hmax : max (max N (off + m)) (off + m + (r - (tot + m))) = max N (off + (r - tot)) := by omega
  rw [hmax] at hdirty hdata
  refine ⟨by omega, hle, hm.trans hmap, hdirty, ⟨w ++ w', ?_, fun hs => ⟨?_, (hall hs).2⟩⟩⟩
  · rw [hdata, hfiles, hm.self.1, Function.update_idem, hf, ← hw, splice_splice hoff]
  · rw [(hall hs).1, hsrc hs, ← List.drop_drop, ← List.take_add]
    congr 1
    omega

theorem Mapped.of_data {x : Nat} {v : Block} (hx : sb.datastart ≤ x) (hit : s'.itable = s.itable)
    (hout : s'.ops = s.ops) (hdisk : s'.disk = Function.update s.disk x v)
    (ip : Ptr) : Mapped sb s s' ip := by
  refine ⟨⟨(s.itable ip).node.addrs, ?_⟩, hout, fun i hi => inodeAt_congr ?_⟩
  · rw [hit]
    exact (Function.update_eq_self ip s.itable).symm
  · have := iblock_lt_data hi
    rw [hdisk, Function.update_of_ne (by omega)]

/-- A chunk of bytes is stored in its block. -/
theorem Dirty.chunk (h : Dirty sb s ip N) (hoff : off ≤ N) (hlt : off < MAXFILE * BSIZE)
    (hfit : off % BSIZE + w.length ≤ BSIZE) (hmax : off + w.length ≤ MAXFILE * BSIZE)
    (h0 : blockAddr s.disk (s.itable ip).node (off / BSIZE) ≠ 0) (hn : N ≤ n)
    (hn' : n ≤ max N (off + w.length)) (hN : N ≤ MAXFILE * BSIZE)
    (hf : openFiles sb s ip N (s.itable ip).inum = some f)
    (hdisk : s'.disk = Function.update s.disk (blockAddr s.disk (s.itable ip).node (off / BSIZE))
      ((s.disk (blockAddr s.disk (s.itable ip).node (off / BSIZE))).write (off % BSIZE) w))
    (hw : Wrote s s') :
    Dirty sb s' ip n ∧ Mapped sb s s' ip ∧ openFiles sb s' ip n =
      Function.update (openFiles sb s ip N) (s.itable ip).inum
        (some { f with data := (splice f.data off w).take n }) := by
  obtain ⟨hopen, hfiles⟩ := h.toOpen.store hoff hlt hfit hmax h0 hn hn' hN hdisk hw.itable hf
  have hblock : off / BSIZE < MAXFILE := Nat.div_lt_of_lt_mul (by rw [Nat.mul_comm]; exact hlt)
  have hx : sb.datastart ≤ blockAddr s.disk (s.itable ip).node (off / BSIZE) := by
    have ht : (opened sb s ip N (s.itable ip).inum).type ≠ 0 := by
      rw [opened_self]
      exact h.type
    have hslot := h.blocks.slot_range h.lt ht (blockSlot_lt hblock) (by rw [opened_self]; exact h0)
    rw [opened_self] at hslot
    exact hslot.1
  have hm : Mapped sb s s' ip := .of_data hx hw.itable hw.ops hdisk ip
  exact ⟨h.mapped hm hopen, hm, hfiles⟩

theorem writeLoop_spec (hE : ∀ l, E ⟨.tooBig, l⟩) (ho : 0 < s.ops.outstanding) (h : Dirty sb s ip N)
    (hoff : off ≤ N) (hN : N ≤ MAXFILE * BSIZE) (hfuel : n ≤ tot + fuel) (htot : tot ≤ n)
    (hend : off + (n - tot) ≤ MAXFILE * BSIZE)
    (hf : openFiles sb s ip N (s.itable ip).inum = some f) :
    wp (writeLoop sb ip src fuel off tot n)
      (fun r s' => Written sb s s' ip src N off tot n r f) E s := by
  have hM : MAXFILE * BSIZE = 274432 := rfl
  induction fuel generalizing s off tot N f with
  | zero =>
      obtain rfl : tot = n := by omega
      exact .done h hoff hf (by omega)
  | succ fuel ih =>
      rw [writeLoop]
      split
      · rename_i hlt
        have hlen := h.toOpen.length_data (by omega) hf
        have hB := BSIZE_eq
        have hmod : off % BSIZE < BSIZE := Nat.mod_lt _ (by decide)
        have hoffM : off < MAXFILE * BSIZE := by omega
        have hblock : off / BSIZE < MAXFILE := Nat.div_lt_of_lt_mul (by rw [Nat.mul_comm]; omega)
        rw [wp_bind]
        refine (bmap_spec hE ho h.toOpen hblock).mono fun addr s₁ h₁ => ?_
        obtain ⟨hatt, haddr, hfull⟩ := h₁
        have h₁ : Dirty sb s₁ ip N := h.mapped hatt.mapped hatt.open
        have hinum : (s₁.itable ip).inum = (s.itable ip).inum := hatt.mapped.self.1
        have hf₁ : openFiles sb s₁ ip N (s₁.itable ip).inum = some f := by
          rw [hatt.files, hinum, hf]
        split
        · rename_i h0
          refine .none (w := []) h₁ hatt.mapped hoff htot ?_ fun _ => ⟨rfl, fun _ => hfull h0⟩
          rw [hatt.files, splice_nil, List.take_of_length_le hlen.le]
          exact (Function.update_eq_self_iff.mpr hf.symm).symm
        · rename_i h0
          subst haddr
          rw [wp_bind, wp_bread, wp_bind, wp_setData]
          generalize hm : min (n - tot) (BSIZE - off % BSIZE) = m
          have hle : (copyin src tot m).length ≤ m := length_copyin_le
          generalize hs₂ : s₁.setBlock _ _ = s₂
          have hdisk : s₂.disk = Function.update s₁.disk
              (blockAddr s₁.disk (s₁.itable ip).node (off / BSIZE))
              ((s₁.disk (blockAddr s₁.disk (s₁.itable ip).node (off / BSIZE))).write (off % BSIZE)
                (copyin src tot m)) := by rw [← hs₂, disk_setBlock]
          have hw₂ : Wrote s₁ s₂ := by
            rw [← hs₂]
            exact ⟨rfl, rfl⟩
          split
          · rename_i hshort
            obtain ⟨hd, hmap, hfiles⟩ := h₁.chunk (n := N) hoff hoffM
              (by omega) (by omega) h0 le_rfl (Nat.le_max_left ..) hN hf₁ hdisk hw₂
            refine .none hd (hatt.mapped.trans hmap) hoff htot (by
              rw [hfiles, hatt.files, hinum]) fun hall => ?_
            rw [copyin_all hall (by omega), List.length_take, List.length_drop,
              length_srcBytes] at hshort
            omega
          · rename_i hlong
            have hw : (copyin src tot m).length = m := by omega
            rw [wp_bind]
            have ho₂ : 0 < s₂.ops.outstanding := by
              rw [hw₂.ops, hatt.mapped.ops]
              exact ho
            refine (log_write_spec hE ho₂).mono fun _ s₃ h₃ => ?_
            obtain ⟨hd, hmap, hfiles⟩ := h₁.chunk (n := max N (off + m)) hoff hoffM (by omega)
              (by omega) h0 (Nat.le_max_left ..) (by rw [hw]) hN hf₁ (h₃.2.trans hdisk)
              (hw₂.trans h₃.1)
            rw [List.take_of_length_le (by rw [length_splice (by omega)]; omega), hatt.files,
              hinum] at hfiles
            have hinum₂ := hmap.self.1
            refine (ih (by rw [h₃.1.ops]; exact ho₂) hd (Nat.le_max_right ..) (by omega)
              (by omega) (by omega) (by omega) (by
                rw [hfiles, hinum₂, hinum, Function.update_self])).mono fun r s' hr => ?_
            exact hr.next (hatt.mapped.trans hmap) hw (by omega)
              (fun hall => copyin_all hall (by omega)) rfl hfiles
      · rename_i hge
        obtain rfl : tot = n := by omega
        exact .done h hoff hf (by omega)

/-- `writei` refuses the arguments. -/
def Refused (len off n : Nat) : Prop := len < off ∨ 2 ^ 32 ≤ off + n ∨ MAXFILE * BSIZE < off + n

instance (len off n : Nat) : Decidable (Refused len off n) := inferInstanceAs (Decidable (_ ∨ _ ∨ _))

/-- The copy of a loaded inode says what its file is. -/
theorem Inv.view (h : Inv sb s) (hl : Loaded s ip) {f : File}
    (hf : files sb s (s.itable ip).inum = some f) :
    f = (s.itable ip).node.file (bytes s.disk (s.itable ip).node) ∧
      (s.itable ip).node.type ≠ 0 ∧ (s.itable ip).inum < sb.ninodes := by
  obtain ⟨hlt, hnode⟩ := h.node hl
  rw [files, filesIn, if_pos hlt, fileOf, ← hnode] at hf
  split at hf
  · cases hf
  · rename_i ht
    exact ⟨(Option.some.inj hf).symm, ht, hlt⟩

theorem Inv.filled (h : Inv sb s) (hl : Loaded s ip) (ht : (s.itable ip).node.type ≠ 0) :
    Filled s.disk (s.itable ip).node ∧ (s.itable ip).node.size.toNat ≤ MAXFILE * BSIZE := by
  obtain ⟨hlt, hnode⟩ := h.node hl
  have h1 := h.blocks.filled _ hlt
  have h2 := h.blocks.sizes _ hlt
  rw [← hnode] at h1 h2
  exact ⟨h1 ht, h2 ht⟩

theorem Inv.file (h : Inv sb s) (hl : Loaded s ip) (ht : (s.itable ip).node.type ≠ 0) :
    files sb s (s.itable ip).inum = some ((s.itable ip).node.file
      (bytes s.disk (s.itable ip).node)) := by
  rw [← h.openFiles hl, openFiles_self (h.dirty hl ht).toOpen, Dinode.setSize_size]

/-- What `writei` does if it does not refuse. -/
structure Wrotei (sb : Superblock) (s s' : State) (ip : Ptr) (src : Src) (off n tot : Nat)
    (f : File) : Prop where
  le : tot ≤ n
  inv : Inv sb s'
  node : NodeOnly s s' ip
  data : ∃ w : List UInt8,
    files sb s' = Function.update (files sb s) (s.itable ip).inum
      (some { f with data := (splice f.data off w).take (max f.data.length (off + tot)) }) ∧
    ((∀ k < n, (src k).isSome) → w = (srcBytes src n).take tot ∧
      (tot < n → freeBlocks sb s'.disk = 0))

theorem wp_writei_of_refused {Q : Int → State → Prop} (hoff : off < 2 ^ 32) (hn : n < 2 ^ 32)
    (hr : Refused (s.itable ip).node.size.toNat off n) :
    wp (writei sb ip src off n) Q E s ↔ Q (-1) s := by
  rw [writei, wp_bind, wp_inode]
  simp only [wrap_iff hoff hn]
  split
  · rw [wp_pure]
  · rename_i hc
    push Not at hc
    rw [Nat.mod_eq_of_lt hc.2, if_pos (by rw [Refused] at hr; omega), wp_pure]

theorem writei_spec (hE : ∀ l, E ⟨.tooBig, l⟩) (ho : 0 < s.ops.outstanding) (h : Inv sb s)
    (hl : Loaded s ip) (hf : files sb s (s.itable ip).inum = some f)
    (ht : (s.itable ip).node.type ≠ 0) (hoff : off < 2 ^ 32) (hn : n < 2 ^ 32) :
    wp (writei sb ip src off n) (fun r s' =>
      if Refused f.data.length off n then r = -1 ∧ s' = s
      else ∃ tot : Nat, r = tot ∧ Wrotei sb s s' ip src off n tot f) E s := by
  have hM : MAXFILE * BSIZE = 274432 := rfl
  have hd := h.dirty hl ht
  have hfile := h.openFiles hl
  have hlen : f.data.length = (s.itable ip).node.size.toNat := by
    obtain rfl := Option.some.inj (hf.symm.trans (h.file hl ht))
    exact length_bytes ..
  have hsize : (s.itable ip).node.size.toNat ≤ MAXFILE * BSIZE := by
    obtain ⟨hlt, hnode⟩ := h.node hl
    have hs := h.blocks.sizes _ hlt
    rw [← hnode] at hs
    exact hs ht
  by_cases hr : Refused f.data.length off n
  · simp only [if_pos hr]
    rw [wp_writei_of_refused hoff hn (hlen ▸ hr)]
    exact ⟨rfl, rfl⟩
  · simp only [if_neg hr]
    obtain ⟨hc, hwrap, hbig⟩ : off ≤ f.data.length ∧ off + n < 2 ^ 32 ∧ off + n ≤ MAXFILE * BSIZE := by
      rw [Refused] at hr
      omega
    rw [writei, wp_bind, wp_inode, if_neg (by rw [wrap_iff hoff hn]; omega), Nat.mod_eq_of_lt hwrap,
      if_neg (by omega), wp_bind]
    refine (writeLoop_spec hE ho hd (hlen ▸ hc) hsize (Nat.le_add_left ..) (Nat.zero_le _) (by omega)
      (by rw [hfile]; exact hf)).mono fun tot s₁ h₁ => ?_
    obtain ⟨-, hle, hmap, hdirty, ⟨w, hfiles, hall⟩⟩ := h₁
    rw [Nat.sub_zero, hfile] at hfiles
    rw [Nat.sub_zero] at hdirty
    rw [wp_bind, wp_inode, wp_bind]
    have hsize₁ : (s₁.itable ip).node.size.toNat = (s.itable ip).node.size.toNat := by
      rw [hmap.self.2.2.2.2]
    have ho₁ : 0 < s₁.ops.outstanding := by rw [hmap.ops]; exact ho
    -- the size is that of the bytes written
    have hset : wp (whenever ((s₁.itable ip).node.size.toNat < off + tot)
        (setNode ip (·.setSize (off + tot)))) (fun _ s₂ => s₂.disk = s₁.disk ∧
          NodeOnly s₁ s₂ ip ∧ Dirty sb s₂ ip (max f.data.length (off + tot)) ∧
          (s₂.itable ip).node.size.toNat = max f.data.length (off + tot) ∧
          openFiles sb s₂ ip (max f.data.length (off + tot)) =
            openFiles sb s₁ ip (max f.data.length (off + tot))) E s₁ := by
      rw [hlen]
      by_cases hgrow : (s₁.itable ip).node.size.toNat < off + tot
      · have hmax : max (s.itable ip).node.size.toNat (off + tot) = off + tot := by omega
        rw [hmax] at hdirty ⊢
        rw [wp_whenever_pos hgrow, wp_setNode]
        obtain ⟨h1, h2⟩ := hdirty.resize
        refine ⟨rfl, s₁.resize_nodeOnly ip _, h1, ?_, h2⟩
        have hn := s₁.resize_node ip (off + tot)
        rw [State.resize] at hn
        rw [hn]
        exact Dinode.size_setSize _ (by omega)
      · have hmax : max (s.itable ip).node.size.toNat (off + tot) =
            (s.itable ip).node.size.toNat := by omega
        rw [hmax] at hdirty ⊢
        rw [wp_whenever_neg hgrow]
        exact ⟨rfl, .refl s₁ ip, hdirty, hsize₁, rfl⟩
    refine hset.mono fun _ s₂ h₂ => ?_
    obtain ⟨hdisk₂, hnode₂, hdirty₂, hsize₂, hfiles₂⟩ := h₂
    rw [wp_bind]
    refine (hdirty₂.iupdate hE (by rw [hnode₂.ops]; exact ho₁) hsize₂).mono
      fun _ s₃ h₃ => ?_
    obtain ⟨hinv, hw, hfree, hf₃⟩ := h₃
    refine ⟨tot, rfl, hle, hinv, (hmap.nodeOnly.trans hnode₂).trans (hw.nodeOnly ip), ⟨w, ?_,
      fun hsrc => ⟨?_, fun hlt => ?_⟩⟩⟩
    · rw [hf₃, hfiles₂, hlen, hfiles]
    · rw [(hall hsrc).1, List.drop_zero, Nat.sub_zero]
    · rw [hfree, hdisk₂]
      exact (hall hsrc).2 hlt

end Write

end Xv6.Fs
