import Xv6.Lib.Cycle
import Xv6.Lib.Extent

/-!
# The allocator of user programs

`malloc`, `free` and `morecore` of `user/umalloc.c`.  Addresses are numbers of bytes, sizes
are numbers of headers.  The memory is a function from the address of a header to the
header.  The loops of `malloc` and `free` have a bound on the number of rounds, and a call
that reaches it has not returned.

`sbrk` fails, or it returns memory above all that it returned before.  How far above is
given with the call, and so is whether it fails.  The memory of a process is physical memory,
so it also fails when the process would have more than there is.
-/

namespace Xv6.Malloc

/-- `sizeof(Header)`. -/
def UNIT : Nat := 16

/-- `uint` arithmetic wraps here. -/
def UINT : Nat := 2 ^ 32

/-- `PHYSTOP - KERNBASE`. -/
def MEMORY : Nat := 128 * 1024 * 1024

structure Header where
  ptr : Nat
  size : Nat

/-- A block of memory: the address of its header, and its size with the header. -/
structure Block where
  addr : Nat
  size : Nat
  deriving DecidableEq

/-- The bytes of a block. -/
def Block.extent (b : Block) : Extent := ⟨b.addr, UNIT * b.size⟩

def Block.stop (b : Block) : Nat := b.addr + UNIT * b.size

/-- The memory and the variable `freep`, with the end of the memory from `sbrk` and what
`sbrk` returned. -/
structure Heap where
  mem : Nat → Header
  freep : Nat
  top : Nat
  regions : List Block

section Memory

variable (mem : Nat → Header) (a v : Nat)

/-- `p->s.ptr = v`. -/
def setPtr : Nat → Header := Function.update mem a { mem a with ptr := v }

/-- `p->s.size = v`. -/
def setSize : Nat → Header := Function.update mem a { mem a with size := v % UINT }

end Memory

/-! ## `free` -/

/-- The loop of `free` ends at `p`. -/
def place (mem : Nat → Header) (bp p : Nat) : Bool :=
  (bp > p && bp < (mem p).ptr) || (p ≥ (mem p).ptr && (bp > p || bp < (mem p).ptr))

/-- The block is merged with the next one, or linked to it. -/
def linkNext (mem : Nat → Header) (bp p : Nat) : Nat → Header :=
  if bp + UNIT * (mem bp).size = (mem p).ptr then
    let mem := setSize mem bp ((mem bp).size + (mem (mem p).ptr).size)
    setPtr mem bp (mem (mem p).ptr).ptr
  else setPtr mem bp (mem p).ptr

/-- The block before is merged with the block, or linked to it. -/
def linkPrev (mem : Nat → Header) (bp p : Nat) : Nat → Header :=
  if p + UNIT * (mem p).size = bp then
    let mem := setSize mem p ((mem p).size + (mem bp).size)
    setPtr mem p (mem bp).ptr
  else setPtr mem p bp

def free (fuel : Nat) (s : Heap) (ap : Nat) : Option Heap :=
  let bp := ap - UNIT
  (Cycle.scan (fun p => (s.mem p).ptr) (place s.mem bp) fuel s.freep).map fun p =>
    { s with mem := linkPrev (linkNext s.mem bp p) bp p, freep := p }

/-! ## `malloc` -/

/-- `sbrk(UNIT * nu)` for a new region. -/
def Heap.grow (s : Heap) (gap nu : Nat) : Heap :=
  { s with
    top := s.top + gap + UNIT * nu
    regions := ⟨s.top + gap, nu⟩ :: s.regions }

/-- The bytes from `sbrk`. -/
def Heap.total (s : Heap) : Nat := UNIT * (s.regions.map Block.size).sum

/-- `morecore`, with the answers of `sbrk`: failure, or the distance from the memory that
there is. -/
def morecore (fuel : Nat) (sbrk : Nat → Option Nat) (s : Heap) (nu : Nat) : Option (Heap × Nat) :=
  let nu := if nu < 4096 then 4096 else nu
  match sbrk s.regions.length with
  | none => some (s, 0)
  | some gap =>
      if s.total + UNIT * nu > MEMORY then some (s, 0)
      else
        let hp := s.top + gap
        let s := s.grow gap nu
        (free fuel { s with mem := setSize s.mem hp nu } (hp + UNIT)).map fun s => (s, s.freep)

/-- A block that is large enough is taken out of the list, or its tail is. -/
def take (s : Heap) (nunits prevp p : Nat) : Heap × Nat :=
  if (s.mem p).size = nunits then
    ({ s with mem := setPtr s.mem prevp (s.mem p).ptr, freep := prevp }, p + UNIT)
  else
    let mem := setSize s.mem p ((s.mem p).size - nunits)
    let p := p + UNIT * (mem p).size
    ({ s with mem := setSize mem p nunits, freep := prevp }, p + UNIT)

/-- The loop of `malloc`. -/
def mallocLoop (sbrk : Nat → Option Nat) (nunits : Nat) :
    Nat → Heap → Nat → Nat → Option (Heap × Nat)
  | 0, _, _, _ => none
  | fuel + 1, s, prevp, p =>
      if (s.mem p).size ≥ nunits then some (take s nunits prevp p)
      else if p = s.freep then
        match morecore fuel sbrk s nunits with
        | none => none
        | some (s, p) =>
            if p = 0 then some (s, 0) else mallocLoop sbrk nunits fuel s p (s.mem p).ptr
      else mallocLoop sbrk nunits fuel s p (s.mem p).ptr

def units (nbytes : Nat) : Nat := (nbytes + UNIT - 1) / UNIT + 1

/-- `malloc`, with the address of `base`. -/
def malloc (base fuel : Nat) (sbrk : Nat → Option Nat) (s : Heap) (nbytes : Nat) :
    Option (Heap × Nat) :=
  let s :=
    if s.freep = 0 then
      { s with mem := setSize (setPtr s.mem base base) base 0, freep := base }
    else s
  mallocLoop sbrk (units nbytes) fuel s s.freep (s.mem s.freep).ptr

/-! ## Programs -/

/-- The allocator and the blocks that the program has. -/
structure State where
  heap : Heap
  live : List Block

/-- What the program does next. -/
inductive Act where
  | malloc (nbytes : Nat) (sbrk : Nat → Option Nat) (fuel : Nat)
  | free (b : Block) (fuel : Nat)
  /-- The program writes to a block that it has. -/
  | write (b : Block) (a : Nat) (h : Header)

/-- The next state, or `none` if the program does not do this or the call has not returned. -/
def step (base : Nat) (s : State) : Act → Option State
  | .malloc nbytes sbrk fuel =>
      if UNIT * units nbytes < 2 ^ 31 then
        match malloc base fuel sbrk s.heap nbytes with
        | none => none
        | some (heap, p) =>
            if p = 0 then some { s with heap := heap }
            else some ⟨heap, ⟨p - UNIT, units nbytes⟩ :: s.live⟩
      else none
  | .free b fuel =>
      if b ∈ s.live then
        (free fuel s.heap (b.addr + UNIT)).map fun heap => ⟨heap, s.live.erase b⟩
      else none
  | .write b a h =>
      if b ∈ s.live ∧ b.addr < a ∧ a < b.stop then
        some { s with heap := { s.heap with mem := Function.update s.heap.mem a h } }
      else none

/-- Nothing was called.  The memory from `sbrk` will begin after `base`. -/
def init (base gap : Nat) (mem : Nat → Header) : State := ⟨⟨mem, 0, base + UNIT + gap, []⟩, []⟩

end Xv6.Malloc
