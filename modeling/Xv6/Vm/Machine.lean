import Xv6.Lib.Bytes
import Xv6.Lib.FreeList
import Xv6.Lib.Hoare
import Xv6.Param

/-!
# Physical memory and the page allocator

Physical memory is a page of bytes for every page address.  The allocator of
`kernel/kalloc.c` keeps its free list in the free pages: the first word of a free
page is the address of the next one (`struct run`).  A program over this memory
returns a value or stops in one of the kernel's panics.
-/

namespace Xv6.Vm

open Hoare FreeList

/-! ## Constants of `kernel/riscv.h` and `kernel/memlayout.h` -/

/-- Bytes per page. -/
def PGSIZE : Nat := 4096
/-- One beyond the highest possible virtual address. -/
def MAXVA : Nat := 1 <<< (9 + 9 + 9 + 12 - 1)
/-- The highest page, in user and kernel space. -/
def TRAMPOLINE : Nat := MAXVA - PGSIZE
/-- The page of `p->trapframe` in user space. -/
def TRAPFRAME : Nat := TRAMPOLINE - PGSIZE
/-- Start of RAM. -/
def KERNBASE : Nat := 0x80000000
/-- End of RAM. -/
def PHYSTOP : Nat := KERNBASE + 128 * 1024 * 1024

def PGROUNDUP (sz : Nat) : Nat := (sz + PGSIZE - 1) / PGSIZE * PGSIZE
def PGROUNDDOWN (a : Nat) : Nat := a / PGSIZE * PGSIZE

/-! ## Panics -/

/-- The panics of the memory, process, file and program loading code.  `fault` is
a trap in the kernel, which ends in `panic("kerneltrap")`. -/
inductive Panic where
  | kfree | walk | mapSize | mapRemap
  | unmapAligned | unmapWalk | unmapNotMapped | unmapNotLeaf
  | uvmfirst | freewalk | copyPte | copyPresent | uvmclear | loadseg
  | filedup | fileclose | initExiting | fault
  deriving DecidableEq, Repr

/-! ## Memory -/

/-- The contents of a page. -/
abbrev Page := Bytes.Region PGSIZE

/-- A page of equal bytes. -/
def Page.fill (b : UInt8) : Page := fun _ => b

/-- A free page is a `struct run`. -/
instance : Links Nat Page where
  null := 0
  next pg := pg.getLe 0 8

/-- Memory by page address and `kmem.freelist`. -/
abbrev Machine := Heap Nat Page

/-- The code that works on memory. -/
abbrev Kern := Prog Machine Panic

/-- Replace the contents of a page. -/
def setPage (pa : Nat) (pg : Page) : Kern Unit := modify fun s => s.set pa pg

/-- `memset(pa, b, PGSIZE)`. -/
def memset (pa : Nat) (b : UInt8) : Kern Unit := setPage pa (Page.fill b)

/-- Store bytes in a page. -/
def storeBytes (pa off : Nat) (bs : List UInt8) : Kern Unit := do
  let s ← get
  setPage pa ((s.mem pa).write off bs)

/-- Where the kernel ends, where `trampoline.S` is, and how many pages the kernel
takes at boot for its page table, the kernel stacks and the disk driver.  There
is room for them and for the first process. -/
structure Layout where
  /-- `end`, the first address after the kernel. -/
  ends : Nat
  /-- The page of the trampoline code. -/
  trampoline : Nat
  bootPages : Nat
  kernbase_le : KERNBASE ≤ ends
  trampoline_aligned : trampoline % PGSIZE = 0
  trampoline_lt : trampoline < PHYSTOP
  room : PGROUNDUP ends + (bootPages + 16) * PGSIZE ≤ PHYSTOP

/-- The pages that `kfree` accepts. -/
def Layout.IsPage (g : Layout) (a : Nat) : Prop :=
  a % PGSIZE = 0 ∧ g.ends ≤ a ∧ a < PHYSTOP

instance (g : Layout) (a : Nat) : Decidable (g.IsPage a) :=
  inferInstanceAs (Decidable (_ ∧ _))

/-! ## `kernel/kalloc.c` -/

section

variable (g : Layout)

def kfree (pa : Nat) : Kern Unit := do
  if pa % PGSIZE ≠ 0 ∨ pa < g.ends ∨ PHYSTOP ≤ pa then throw .kfree
  -- fill with junk, then link the page in front of the list
  modify fun s => ⟨Function.update s.mem pa ((Page.fill 1).setLe 0 8 s.free), pa⟩

/-- `n` rounds of the loop of `freerange`. -/
def freerangeLoop : Nat → Nat → Kern Unit
  | 0, _ => pure ()
  | n + 1, p => do
      kfree g p
      freerangeLoop n (p + PGSIZE)

def freerange (pa_start pa_end : Nat) : Kern Unit :=
  freerangeLoop g ((pa_end - PGROUNDUP pa_start) / PGSIZE) (PGROUNDUP pa_start)

def kinit : Kern Unit := freerange g g.ends PHYSTOP

end

/-- The address of a page filled with junk, or `0`. -/
def kalloc : Kern Nat := do
  let s ← get
  if s.free = 0 then
    return 0
  else
    set (⟨Function.update s.mem s.free (Page.fill 5), Links.next (s.mem s.free)⟩ : Machine)
    return s.free

end Xv6.Vm
