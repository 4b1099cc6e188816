import Xv6.Param

/-!
# The log header

`struct logheader` is the count `n` followed by the block numbers of the logged
blocks.  It has the same layout in memory and in the first block of the log.
Only the first `n` entries are ever read, so in memory the header is the list
of those entries.  On disk it is bytes: `putHeader` overwrites the count and the
first `n` entries of a block and leaves the rest of the block alone, and
`getHeader` reads them back.
-/

namespace Xv6

open Bytes

/-- Where the log lies on the disk: `log.start` and `log.size`. -/
structure Geom where
  /-- Block number of the header. -/
  start : Nat
  /-- Number of blocks, the header included. -/
  size : Nat

/-- A block outside the log area. -/
def Geom.Home (g : Geom) (b : Nat) : Prop := b < g.start ∨ g.start + g.size ≤ b

instance (g : Geom) (b : Nat) : Decidable (g.Home b) := by unfold Geom.Home; infer_instance

/-! ## The bytes of a header -/

/-- Offset of `block[i]` in a header. -/
def headerOff (i : Nat) : Nat := 4 + 4 * i

/-- Store block numbers in the entries from `i` on. -/
def putEntries (buf : Block) (i : Nat) : List Nat → Block
  | [] => buf
  | b :: bs => putEntries (buf.setLe (headerOff i) 4 b) (i + 1) bs

/-- Store a header in a block: the assignments of `write_head`. -/
def putHeader (buf : Block) (lh : List Nat) : Block :=
  putEntries (buf.setLe 0 4 lh.length) 0 lh

/-- The count `n` of the header in a block, a C `int`. -/
@[irreducible] def getCount (buf : Block) : Int := buf.getInt 0 4

/-- Read the header in a block: the assignments of `read_head`.  A negative
count gives no entries. -/
@[irreducible] def getHeader (buf : Block) : List Nat :=
  (List.range (getCount buf).toNat).map fun i => buf.getLe (headerOff i) 4

theorem putEntries_getLe_of_le : ∀ (bs : List Nat) (buf : Block) {i a u : Nat},
    a + u ≤ headerOff i → (putEntries buf i bs).getLe a u = buf.getLe a u
  | [], _, _, _, _, _ => rfl
  | b :: bs, buf, i, a, u, h => by
      have h' : a + u ≤ headerOff (i + 1) := by unfold headerOff at h ⊢; omega
      rw [putEntries, putEntries_getLe_of_le bs _ h',
        Region.getLe_setLe_of_disjoint _ _ (Or.inl h)]

theorem putEntries_getLe : ∀ (bs : List Nat) (buf : Block) {i k : Nat} (hk : k < bs.length),
    headerOff (i + k) + 4 ≤ BSIZE → bs[k] < 2 ^ 32 →
      (putEntries buf i bs).getLe (headerOff (i + k)) 4 = bs[k]
  | b :: bs, buf, i, 0, _, hfit, hlt => by
      have hb : b < 256 ^ 4 := by simpa using hlt
      rw [putEntries, putEntries_getLe_of_le bs _ (by unfold headerOff; omega),
        Nat.add_zero, Region.getLe_setLe _ _ (by simpa using hfit), Nat.mod_eq_of_lt hb]
      rfl
  | b :: bs, buf, i, k + 1, hk, hfit, hlt => by
      have heq : i + (k + 1) = (i + 1) + k := by omega
      rw [heq] at hfit ⊢
      exact putEntries_getLe bs _ (by simpa using hk) hfit (by simpa using hlt)

theorem getCount_putHeader (buf : Block) {lh : List Nat} (hlen : lh.length ≤ LOGSIZE) :
    getCount (putHeader buf lh) = lh.length := by
  have hsz : lh.length ≤ 30 := hlen
  have hget : (putHeader buf lh).getLe 0 4 = lh.length := by
    rw [putHeader, putEntries_getLe_of_le lh _ (by simp [headerOff]),
      Region.getLe_setLe _ _ (by simp [BSIZE]), Nat.mod_eq_of_lt (by omega)]
  rw [getCount, Region.getInt, hget, toSigned_of_small (by omega)]

/-- A header of at most `LOGSIZE` entries is read back from the block it was
stored in. -/
theorem getHeader_putHeader (buf : Block) {lh : List Nat} (hlen : lh.length ≤ LOGSIZE)
    (hlt : ∀ b ∈ lh, b < 2 ^ 32) : getHeader (putHeader buf lh) = lh := by
  have hsz : lh.length ≤ 30 := hlen
  have hn := getCount_putHeader buf hlen
  apply List.ext_getElem
  · simp [getHeader, hn]
  · intro k hk hk'
    have hfit : headerOff (0 + k) + 4 ≤ BSIZE := by unfold headerOff BSIZE; omega
    have hent := putEntries_getLe lh (buf.setLe 0 4 lh.length) hk' hfit
      (hlt _ (List.getElem_mem hk'))
    rw [Nat.zero_add] at hent
    simpa [getHeader, putHeader] using hent

/-! ## The header of a disk -/

/-- The header stored on a disk. -/
def Geom.header (g : Geom) (d : Disk) : List Nat := getHeader (d g.start)

/-- The count `n` of the header stored on a disk. -/
def Geom.count (g : Geom) (d : Disk) : Int := getCount (d g.start)

theorem Geom.header_of_count {g : Geom} {d : Disk} (h : g.count d = 0) : g.header d = [] := by
  unfold Geom.count at h
  unfold Geom.header getHeader
  rw [h]
  rfl

/-- The block numbers a transaction may hold: distinct, outside the log area, at
most one for every log slot and every entry of `struct logheader`. -/
structure Txn (g : Geom) (lh : List Nat) : Prop where
  /-- `log_write` absorbs a block that is already logged. -/
  nodup : lh.Nodup
  /-- Only blocks outside the log are logged. -/
  home : ∀ b ∈ lh, g.Home b
  /-- `b->blockno` is a `uint`. -/
  lt : ∀ b ∈ lh, b < 2 ^ 32
  /-- The header block takes one of the `log.size` blocks. -/
  fits : lh.length + 1 ≤ g.size
  /-- `block` has `LOGSIZE` entries. -/
  entries : lh.length ≤ LOGSIZE

theorem Txn.nil {g : Geom} (h : 1 ≤ g.size) : Txn g [] :=
  ⟨.nil, by simp, by simp, by simpa using h, Nat.zero_le _⟩

theorem Txn.getHeader_put {g : Geom} {lh : List Nat} (h : Txn g lh) (buf : Block) :
    getHeader (putHeader buf lh) = lh :=
  getHeader_putHeader buf h.entries h.lt

end Xv6
