import Xv6.Log.Header

/-!
# Committing and recovering

The redo log of `kernel/log.c`, one block write at a time.  A `Log` is the disk,
the buffer cache and the fields of `struct log`.  `commit` and
`recover_from_log` are machines: a program counter says where in the function
the kernel is, and a step runs the code from there up to and including the next
block write, so that a crash between two steps is a crash between two block
writes.  Loops read `log.lh.n` again before every round, as the source does.

The cache maps a block to the contents of its buffer.  A block without a buffer
is read from the disk.  A buffer that was read and not modified holds what the
disk holds, so reading leaves the cache alone.  A crash loses everything but
the disk.
-/

namespace Xv6

/-! ## The log in memory and on disk -/

/-- The disk, the buffer cache and the fields of `struct log`. -/
structure Log where
  /-- Block contents on the disk. -/
  disk : Disk
  /-- Contents of the buffers in the cache. -/
  cache : Nat → Option Block
  /-- How often a buffer is pinned by `bpin`. -/
  pin : Nat → Nat
  /-- `log.lh`: the first `n` entries. -/
  lh : List Nat
  /-- `log.outstanding`: how many FS sys calls are executing. -/
  outstanding : Int
  /-- `log.committing`: in `commit()`, please wait. -/
  committing : Bool

namespace Log

/-- `bread`: the contents of the buffer of a block. -/
def bread (l : Log) (b : Nat) : Block := (l.cache b).getD (l.disk b)

/-- `bwrite` on a buffer whose data was just set to `v`. -/
def bwrite (l : Log) (b : Nat) (v : Block) : Log :=
  { l with disk := Function.update l.disk b v, cache := Function.update l.cache b (some v) }

/-- `bunpin`. -/
def bunpin (l : Log) (b : Nat) : Log :=
  { l with pin := Function.update l.pin b (l.pin b - 1) }

/-- `write_head`: store the in-memory header in the header block. -/
def writeHead (g : Geom) (l : Log) : Log :=
  l.bwrite g.start (putHeader (l.bread g.start) l.lh)

/-- `read_head`: load the in-memory header from the header block. -/
def readHead (g : Geom) (l : Log) : Log := { l with lh := getHeader (l.bread g.start) }

/-- One round of the loop of `write_log`: copy the cached block to its slot. -/
def writeLogBody (g : Geom) (l : Log) (tail : Nat) : Log :=
  l.bwrite (g.start + tail + 1) (l.bread (l.lh.getD tail 0))

/-- One round of the loop of `install_trans`: copy the slot to its home block. -/
def installBody (g : Geom) (recovering : Bool) (l : Log) (tail : Nat) : Log :=
  let dst := l.lh.getD tail 0
  let l' := l.bwrite dst (l.bread (g.start + tail + 1))
  if recovering then l' else l'.bunpin dst

/-- The state after a reboot: the disk and nothing else. -/
def boot (d : Disk) : Log := ⟨d, fun _ => none, fun _ => 0, [], 0, false⟩

end Log

/-! ## The machines -/

/-- Where in `commit()` the committing process is. -/
inductive CommitPc where
  /-- In the loop of `write_log`. -/
  | writeLog (tail : Nat)
  /-- At the first `write_head`. -/
  | writeHead
  /-- In the loop of `install_trans(0)`. -/
  | installTrans (tail : Nat)
  /-- At the second `write_head`, `log.lh.n` is 0. -/
  | clearHead
  | done
deriving DecidableEq

/-- The test at the entry of `commit()`. -/
def commitEntry (l : Log) : CommitPc := if 0 < l.lh.length then .writeLog 0 else .done

/-- `commit()`, up to and including the next block write. -/
def commitStep (g : Geom) : Log × CommitPc → Log × CommitPc
  | (l, .writeLog tail) =>
      if tail < l.lh.length then (l.writeLogBody g tail, .writeLog (tail + 1))
      else (l, .writeHead)
  | (l, .writeHead) => (l.writeHead g, .installTrans 0)
  | (l, .installTrans tail) =>
      if tail < l.lh.length then (l.installBody g false tail, .installTrans (tail + 1))
      else ({ l with lh := [] }, .clearHead)
  | (l, .clearHead) => (l.writeHead g, .done)
  | (l, .done) => (l, .done)

/-- The first `write_head` of `commit()` has reached the disk. -/
def CommitPc.HeadWritten : CommitPc → Prop
  | .writeLog _ | .writeHead => False
  | .installTrans _ | .clearHead | .done => True

/-- Where in `recover_from_log()` the kernel is. -/
inductive RecoverPc where
  | readHead
  /-- In the loop of `install_trans(1)`. -/
  | installTrans (tail : Nat)
  /-- At `write_head`, `log.lh.n` is 0. -/
  | clearHead
  | done
deriving DecidableEq

/-- `recover_from_log()`, up to and including the next block write. -/
def recoverStep (g : Geom) : Log × RecoverPc → Log × RecoverPc
  | (l, .readHead) => (l.readHead g, .installTrans 0)
  | (l, .installTrans tail) =>
      if tail < l.lh.length then (l.installBody g true tail, .installTrans (tail + 1))
      else ({ l with lh := [] }, .clearHead)
  | (l, .clearHead) => (l.writeHead g, .done)
  | (l, .done) => (l, .done)

/-! ## Crashes -/

/-- A boot on disk `d` that runs `k` steps of the recovery. -/
def recoverFor (g : Geom) (d : Disk) (k : Nat) : Log × RecoverPc :=
  (recoverStep g)^[k] (Log.boot d, .readHead)

/-- Disks left by any number of boots whose recovery was cut short. -/
inductive Crashes (g : Geom) : Disk → Disk → Prop where
  | refl : Crashes g d d
  | crash (k : Nat) : Crashes g d d' → Crashes g d (recoverFor g d' k).1.disk

/-- A boot on disk `d` runs its recovery to completion and leaves disk `d'`. -/
def Recovers (g : Geom) (d d' : Disk) : Prop :=
  ∃ k, (recoverFor g d k).2 = .done ∧ (recoverFor g d k).1.disk = d'

end Xv6
