import Xv6.Fs.Blocks
import Xv6.Lib.Hoare

/-!
# The file system code

The functions of `kernel/fs.c`, and `log_write` of `kernel/log.c`, as programs of one process
that runs alone.  The state is what the buffer cache shows of the disk, the list of logged blocks,
and the inode table.  A pointer to an inode is the number of its table entry.  There is one
device.

A buffer is locked from `bread` to `brelse`, so a store to it and its `log_write` are one step
(`store`).  To wait for a sleep-lock that nobody will release is a stop of its own.
-/

namespace Xv6.Fs

open Bytes Hoare

/-! ## States -/

/-- `struct inode`. -/
structure Inode where
  dev : Nat
  inum : Nat
  /-- Reference count. -/
  ref : Nat
  /-- The sleep-lock is held. -/
  locked : Bool
  /-- Inode has been read from disk. -/
  valid : Bool
  /-- Copy of disk inode. -/
  node : Dinode

/-- A pointer to an entry of `itable`. -/
abbrev Ptr := Fin NINODE

/-- What `begin_op` and `end_op` alone change. -/
structure Ops where
  /-- `log.outstanding`. -/
  outstanding : Nat
  /-- The blocks of the transactions committed so far, a history. -/
  commits : List (List Nat)

structure State where
  /-- The blocks as `bread` returns them. -/
  disk : Disk
  /-- The blocks in `log.lh`. -/
  lh : List Nat
  ops : Ops
  itable : Ptr → Inode

/-- Why the kernel stops.  All but `sleeps` are panics. -/
inductive Panic where
  | tooBig | outsideTrans | ilock | noType | iunlock | bmapRange | sleeps
  deriving DecidableEq, Repr

/-- A stop, and the blocks that were logged until then. -/
structure Stop where
  why : Panic
  lh : List Nat

abbrev FsM := Prog State Stop

def panic {α : Type} (why : Panic) : FsM α := do
  throw ⟨why, (← get).lh⟩

def State.setBlock (s : State) (b : Nat) (v : Block) : State :=
  { s with disk := Function.update s.disk b v }

def State.setInode (s : State) (ip : Ptr) (e : Inode) : State :=
  { s with itable := Function.update s.itable ip e }

def bread (b : Nat) : FsM Block := do
  return (← get).disk b

/-- Store to the data of a buffer. -/
def setData (b : Nat) (v : Block) : FsM Unit := modify (·.setBlock b v)

def inode (ip : Ptr) : FsM Inode := do
  return (← get).itable ip

def setInode (ip : Ptr) (e : Inode) : FsM Unit := modify (·.setInode ip e)

/-- Store to the copy of the disk inode. -/
def setNode (ip : Ptr) (f : Dinode → Dinode) : FsM Unit := do
  let e ← inode ip
  setInode ip { e with node := f e.node }

section

variable (sb : Superblock)

/-! ## Blocks -/

/-- `log.size` is `sb.nlog`. -/
def log_write (b : Nat) : FsM Unit := do
  let s ← get
  if LOGSIZE ≤ s.lh.length ∨ sb.nlog - 1 ≤ s.lh.length then
    panic .tooBig
  else if s.ops.outstanding < 1 then
    panic .outsideTrans
  else if b ∈ s.lh then
    pure ()
  else
    set { s with lh := s.lh ++ [b] }

/-- Modify the data of a buffer, then `log_write` it. -/
def store (b : Nat) (v : Block) : FsM Unit := do
  setData b v
  log_write sb b

def bzero (b : Nat) : FsM Unit := store sb b zeroBlock

/-- The two loops look at all blocks in order. -/
def balloc : FsM Nat := do
  let s ← get
  match (List.range sb.size).find? fun b => !bitAt sb s.disk b with
  | some b => do
      store sb (sb.bblock b) (setBit (s.disk (sb.bblock b)) (b % BPB) true)
      bzero sb b
      return b
  | none => return 0

/-! ## Inodes -/

def iupdate (ip : Ptr) : FsM Unit := do
  let e ← inode ip
  let v ← bread (sb.iblock e.inum)
  store sb (sb.iblock e.inum) (setDinode v (e.inum % IPB) e.node)

/-- `memset(dip, 0, sizeof(*dip))`, then `dip->type = type`. -/
def newDinode (type : Int16) : Dinode := ⟨type, 0, 0, 0, 0, fun _ => 0⟩

def ilock (ip : Ptr) : FsM Unit := do
  let e ← inode ip
  if e.ref < 1 then
    panic .ilock
  else if e.locked then
    panic .sleeps
  else if e.valid then
    setInode ip { e with locked := true }
  else do
    let v ← bread (sb.iblock e.inum)
    let node := getDinode v (e.inum % IPB)
    setInode ip { e with locked := true, valid := true, node := node }
    if node.type = 0 then
      panic .noType
    else
      pure ()

def iunlock (ip : Ptr) : FsM Unit := do
  let e ← inode ip
  if !e.locked ∨ e.ref < 1 then
    panic .iunlock
  else
    setInode ip { e with locked := false }

/-! ## Inode content -/

/-- `ip->addrs[k]`, with a new block if there is none. -/
def addrAlloc (ip : Ptr) (k : Nat) : FsM Nat := do
  let e ← inode ip
  if e.node.addr k = 0 then do
    let addr ← balloc sb
    if addr = 0 then
      return 0
    else do
      setNode ip (·.setAddr k addr)
      return addr
  else
    return e.node.addr k

/-- The entry `bn` of the indirect block `ind`, with a new block if there is none. -/
def entryAlloc (ind bn : Nat) : FsM Nat := do
  let v ← bread ind
  if getUint v bn = 0 then do
    let addr ← balloc sb
    if addr = 0 then
      return 0
    else do
      let v ← bread ind
      store sb ind (setUint v bn addr)
      return addr
  else
    return getUint v bn

def bmap (ip : Ptr) (bn : Nat) : FsM Nat :=
  if bn < NDIRECT then
    addrAlloc sb ip bn
  else if bn - NDIRECT < NINDIRECT then do
    let ind ← addrAlloc sb ip NDIRECT
    if ind = 0 then
      return 0
    else
      entryAlloc sb ind (bn - NDIRECT)
  else
    panic .bmapRange

/-- A buffer that is written to: which of its bytes can be stored to.  All of them, if it is in
the kernel. -/
abbrev Dst := Nat → Bool

/-- A buffer that is read from: its bytes, as far as they can be loaded. -/
abbrev Src := Nat → Option UInt8

/-- A buffer in the kernel. -/
def inKernel : Dst := fun _ => true

/-- The bytes that `either_copyout` stores at `at` until it stops. -/
def copyout (dst : Dst) (i : Nat) (bs : List UInt8) : List UInt8 :=
  bs.take ((List.range bs.length).takeWhile fun k => dst (i + k)).length

/-- The bytes that `either_copyin` loads from `at` until it stops. -/
def copyin (src : Src) (i m : Nat) : List UInt8 :=
  (((List.range m).map fun k => src (i + k)).takeWhile Option.isSome).filterMap id

/-- The loop of `readi`.  Returns `tot` and the bytes stored. -/
def readLoop (ip : Ptr) (dst : Dst) : Nat → Nat → Nat → Nat → FsM (Int × List UInt8)
  | 0, _, tot, _ => return (tot, [])
  | fuel + 1, off, tot, n =>
      if tot < n then do
        let addr ← bmap sb ip (off / BSIZE)
        if addr = 0 then
          return (tot, [])
        else do
          let v ← bread addr
          let m := min (n - tot) (BSIZE - off % BSIZE)
          let bs := copyout dst tot (v.read (off % BSIZE) m)
          if bs.length < m then
            return (-1, bs)
          else do
            let r ← readLoop ip dst fuel (off + m) (tot + m) n
            return (r.1, bs ++ r.2)
      else
        return (tot, [])

/-- Returns the result and the bytes stored. -/
def readi (ip : Ptr) (dst : Dst) (off n : Nat) : FsM (Int × List UInt8) := do
  let e ← inode ip
  let size := e.node.size.toNat
  if size < off ∨ (off + n) % 2 ^ 32 < off then
    return (0, [])
  else
    let n := if size < (off + n) % 2 ^ 32 then size - off else n
    readLoop sb ip dst n off 0 n

/-- The loop of `writei`.  Returns `tot`. -/
def writeLoop (ip : Ptr) (src : Src) : Nat → Nat → Nat → Nat → FsM Nat
  | 0, _, tot, _ => return tot
  | fuel + 1, off, tot, n =>
      if tot < n then do
        let addr ← bmap sb ip (off / BSIZE)
        if addr = 0 then
          return tot
        else do
          let v ← bread addr
          let m := min (n - tot) (BSIZE - off % BSIZE)
          let bs := copyin src tot m
          setData addr (v.write (off % BSIZE) bs)
          -- a short copy leaves its bytes in the buffer and is not logged
          if bs.length < m then
            return tot
          else do
            log_write sb addr
            writeLoop ip src fuel (off + m) (tot + m) n
      else
        return tot

def writei (ip : Ptr) (src : Src) (off n : Nat) : FsM Int := do
  let e ← inode ip
  if e.node.size.toNat < off ∨ (off + n) % 2 ^ 32 < off then
    return -1
  else if MAXFILE * BSIZE < (off + n) % 2 ^ 32 then
    return -1
  else do
    let tot ← writeLoop sb ip src n off 0 n
    let e ← inode ip
    whenever (e.node.size.toNat < off + tot) (setNode ip (·.setSize (off + tot)))
    iupdate sb ip
    return tot

end

end Xv6.Fs
