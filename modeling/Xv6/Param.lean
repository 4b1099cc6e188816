import Xv6.Lib.Bytes

/-!
# Constants

The compile-time constants of `kernel/param.h` and `kernel/fs.h`, under their
own names, and the type of a disk block.
-/

namespace Xv6

/-! ## `kernel/param.h` -/

/-- Maximum number of processes. -/
def NPROC : Nat := 64
/-- Open files per process. -/
def NOFILE : Nat := 16
/-- Open files per system. -/
def NFILE : Nat := 100
/-- Maximum number of active i-nodes. -/
def NINODE : Nat := 50
/-- Device number of file system root disk. -/
def ROOTDEV : Nat := 1
/-- Max # of blocks any FS op writes. -/
def MAXOPBLOCKS : Nat := 10
/-- Max data blocks in on-disk log. -/
def LOGSIZE : Nat := MAXOPBLOCKS * 3

/-! ## `kernel/fs.h` -/

/-- Block size. -/
def BSIZE : Nat := 1024

/-- The contents of one disk block. -/
abbrev Block := Bytes.Region BSIZE

/-- A disk: the contents of every block, by number. -/
abbrev Disk := Nat → Block

end Xv6
