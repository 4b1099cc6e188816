import Xv6.Vm.Machine

/-!
# Page tables

The functions of `kernel/vm.c` that build, change and read user page tables.  A
`pte_t *` is the pair of a page-table page and an index.  A loop is a recursion on
the number of rounds that are left.
-/

namespace Xv6.Vm

open Hoare FreeList

/-! ## Page-table entries -/

/-- Valid. -/
def PTE_V : Nat := 1 <<< 0
def PTE_R : Nat := 1 <<< 1
def PTE_W : Nat := 1 <<< 2
def PTE_X : Nat := 1 <<< 3
/-- User can access. -/
def PTE_U : Nat := 1 <<< 4

def PA2PTE (pa : Nat) : Nat := (pa >>> 12) <<< 10
def PTE2PA (pte : Nat) : Nat := (pte >>> 10) <<< 12
def PTE_FLAGS (pte : Nat) : Nat := pte &&& 0x3FF

/-- The index at a level of the tree. -/
def PX (level va : Nat) : Nat := (va >>> (12 + 9 * level)) &&& 0x1FF

/-- `pagetable[i]`. -/
def pteOf (m : Nat → Page) (pagetable i : Nat) : Nat := (m pagetable).getLe (8 * i) 8

def readPte (pagetable i : Nat) : Kern Nat := do
  let s ← get
  return pteOf s.mem pagetable i

def writePte (pagetable i pte : Nat) : Kern Unit := do
  let s ← get
  setPage pagetable ((s.mem pagetable).setLe (8 * i) 8 pte)

/-! ## The tree -/

/-- The loop of `walk` from a level on. -/
def walkFrom (va : Nat) (alloc : Bool) : Nat → Nat → Kern (Option (Nat × Nat))
  | 0, pagetable => return some (pagetable, PX 0 va)
  | level + 1, pagetable => do
      let pte ← readPte pagetable (PX (level + 1) va)
      if pte &&& PTE_V ≠ 0 then
        walkFrom va alloc level (PTE2PA pte)
      else if alloc = false then
        return none
      else
        let page ← kalloc
        if page = 0 then
          return none
        else
          memset page 0
          writePte pagetable (PX (level + 1) va) (PA2PTE page ||| PTE_V)
          walkFrom va alloc level page

def walk (pagetable va : Nat) (alloc : Bool) : Kern (Option (Nat × Nat)) :=
  if MAXVA ≤ va then throw .walk else walkFrom va alloc 2 pagetable

def walkaddr (pagetable va : Nat) : Kern Nat := do
  if MAXVA ≤ va then
    return 0
  else
    match ← walk pagetable va false with
    | none => return 0
    | some (pt, i) =>
        let pte ← readPte pt i
        if pte &&& PTE_V = 0 then
          return 0
        else if pte &&& PTE_U = 0 then
          return 0
        else
          return PTE2PA pte

/-- One round of the loop of `mappages`. -/
def mapPage (pagetable a pa perm : Nat) : Kern Int := do
  match ← walk pagetable a true with
  | none => return -1
  | some (pt, i) =>
      let pte ← readPte pt i
      if pte &&& PTE_V ≠ 0 then
        throw .mapRemap
      else
        writePte pt i (PA2PTE pa ||| perm ||| PTE_V)
        return 0

/-- The loop of `mappages`, with `n` rounds after this one. -/
def mappagesLoop (pagetable perm : Nat) : Nat → Nat → Nat → Kern Int
  | 0, a, pa => mapPage pagetable a pa perm
  | n + 1, a, pa => do
      let r ← mapPage pagetable a pa perm
      if r ≠ 0 then
        return -1
      else
        mappagesLoop pagetable perm n (a + PGSIZE) (pa + PGSIZE)

def mappages (pagetable va size pa perm : Nat) : Kern Int :=
  if size = 0 then
    throw .mapSize
  else
    let a := PGROUNDDOWN va
    let last := PGROUNDDOWN (va + size - 1)
    mappagesLoop pagetable perm ((last - a) / PGSIZE) a pa

section

variable (g : Layout)

def uvmunmapLoop (pagetable : Nat) (do_free : Bool) : Nat → Nat → Kern Unit
  | 0, _ => return ()
  | n + 1, a => do
      match ← walk pagetable a false with
      | none => throw .unmapWalk
      | some (pt, i) =>
          let pte ← readPte pt i
          if pte &&& PTE_V = 0 then
            throw .unmapNotMapped
          else if PTE_FLAGS pte = PTE_V then
            throw .unmapNotLeaf
          else
            whenever do_free (kfree g (PTE2PA pte))
            writePte pt i 0
            uvmunmapLoop pagetable do_free n (a + PGSIZE)

def uvmunmap (pagetable va npages : Nat) (do_free : Bool) : Kern Unit :=
  if va % PGSIZE ≠ 0 then throw .unmapAligned else uvmunmapLoop g pagetable do_free npages va

/-- The root of an empty page table, or `0`. -/
def uvmcreate : Kern Nat := do
  let pagetable ← kalloc
  if pagetable = 0 then
    return 0
  else
    memset pagetable 0
    return pagetable

/-- `uvmfirst` with the bytes of `src` and `sz` their number.  It writes to the
page that `kalloc` returned without a test. -/
def uvmfirst (pagetable : Nat) (src : List UInt8) : Kern Unit :=
  if PGSIZE ≤ src.length then
    throw .uvmfirst
  else do
    let mem ← kalloc
    if mem = 0 then
      throw .fault
    else
      memset mem 0
      let _ ← mappages pagetable 0 PGSIZE mem (PTE_W ||| PTE_R ||| PTE_X ||| PTE_U)
      storeBytes mem 0 src

def uvmdealloc (pagetable oldsz newsz : Nat) : Kern Nat :=
  if oldsz ≤ newsz then
    return oldsz
  else do
    whenever (PGROUNDUP newsz < PGROUNDUP oldsz)
      (uvmunmap g pagetable (PGROUNDUP newsz) ((PGROUNDUP oldsz - PGROUNDUP newsz) / PGSIZE) true)
    return newsz

/-- The loop of `uvmalloc`, with `oldsz` rounded up. -/
def uvmallocLoop (pagetable oldsz newsz xperm : Nat) : Nat → Nat → Kern Nat
  | 0, _ => return newsz
  | n + 1, a => do
      let mem ← kalloc
      if mem = 0 then
        let _ ← uvmdealloc g pagetable a oldsz
        return 0
      else
        memset mem 0
        let r ← mappages pagetable a PGSIZE mem (PTE_R ||| PTE_U ||| xperm)
        if r ≠ 0 then
          kfree g mem
          let _ ← uvmdealloc g pagetable a oldsz
          return 0
        else
          uvmallocLoop pagetable oldsz newsz xperm n (a + PGSIZE)

def uvmalloc (pagetable oldsz newsz xperm : Nat) : Kern Nat :=
  if newsz < oldsz then
    return oldsz
  else
    let oldsz := PGROUNDUP oldsz
    uvmallocLoop g pagetable oldsz newsz xperm ((newsz - oldsz + PGSIZE - 1) / PGSIZE) oldsz

/-- The loop of `freewalk` over the entries of one page, with `n` entries left,
given what the recursive call does. -/
def freewalkLoop (child : Nat → Kern Unit) (pagetable : Nat) : Nat → Nat → Kern Unit
  | 0, _ => return ()
  | n + 1, i => do
      let pte ← readPte pagetable i
      if pte &&& PTE_V ≠ 0 ∧ pte &&& (PTE_R ||| PTE_W ||| PTE_X) = 0 then
        child (PTE2PA pte)
        writePte pagetable i 0
        freewalkLoop child pagetable n (i + 1)
      else if pte &&& PTE_V ≠ 0 then
        throw .freewalk
      else
        freewalkLoop child pagetable n (i + 1)

/-- `freewalk` with a bound on the depth of the recursion. -/
def freewalkDepth : Nat → Nat → Kern Unit
  | 0, _ => throw .fault
  | depth + 1, pagetable => do
      freewalkLoop (freewalkDepth depth) pagetable 512 0
      kfree g pagetable

/-- A page table has three levels. -/
def freewalk (pagetable : Nat) : Kern Unit := freewalkDepth g 3 pagetable

def uvmfree (pagetable sz : Nat) : Kern Unit := do
  whenever (0 < sz) (uvmunmap g pagetable 0 (PGROUNDUP sz / PGSIZE) true)
  freewalk g pagetable

/-- The loop of `uvmcopy`. -/
def uvmcopyLoop (old new : Nat) : Nat → Nat → Kern Int
  | 0, _ => return 0
  | n + 1, i => do
      match ← walk old i false with
      | none => throw .copyPte
      | some (pt, k) =>
          let pte ← readPte pt k
          if pte &&& PTE_V = 0 then
            throw .copyPresent
          else
            let pa := PTE2PA pte
            let flags := PTE_FLAGS pte
            let mem ← kalloc
            if mem = 0 then
              uvmunmap g new 0 (i / PGSIZE) true
              return -1
            else
              let s ← get
              setPage mem (s.mem pa)
              let r ← mappages new i PGSIZE mem flags
              if r ≠ 0 then
                kfree g mem
                uvmunmap g new 0 (i / PGSIZE) true
                return -1
              else
                uvmcopyLoop old new n (i + PGSIZE)

def uvmcopy (old new sz : Nat) : Kern Int :=
  uvmcopyLoop g old new ((sz + PGSIZE - 1) / PGSIZE) 0

end

/-- `~PTE_U`. -/
def clearUser : Nat := 2 ^ 64 - 1 - PTE_U

def uvmclear (pagetable va : Nat) : Kern Unit := do
  match ← walk pagetable va false with
  | none => throw .uvmclear
  | some (pt, i) =>
      let pte ← readPte pt i
      writePte pt i (pte &&& clearUser)

/-! ## Copies between kernel and user -/

/-- The loop of `copyout`.  A round copies at least one byte, so as many rounds as
there are bytes are enough. -/
def copyoutLoop (pagetable : Nat) : Nat → Nat → List UInt8 → Kern Int
  | _, _, [] => return 0
  | 0, _, _ :: _ => return 0
  | fuel + 1, dstva, src => do
      let va0 := PGROUNDDOWN dstva
      let pa0 ← walkaddr pagetable va0
      if pa0 = 0 then
        return -1
      else
        let n := min (PGSIZE - (dstva - va0)) src.length
        storeBytes pa0 (dstva - va0) (src.take n)
        copyoutLoop pagetable fuel (va0 + PGSIZE) (src.drop n)

def copyout (pagetable dstva : Nat) (src : List UInt8) : Kern Int :=
  copyoutLoop pagetable src.length dstva src

/-- The loop of `copyin`, with the bytes copied so far. -/
def copyinLoop (pagetable : Nat) : Nat → Nat → Nat → List UInt8 → Kern (Int × List UInt8)
  | _, _, 0, dst => return (0, dst)
  | 0, _, _ + 1, dst => return (0, dst)
  | fuel + 1, srcva, len, dst => do
      let va0 := PGROUNDDOWN srcva
      let pa0 ← walkaddr pagetable va0
      if pa0 = 0 then
        return (-1, dst)
      else
        let n := min (PGSIZE - (srcva - va0)) len
        let s ← get
        copyinLoop pagetable fuel (va0 + PGSIZE) (len - n)
          (dst ++ (s.mem pa0).read (srcva - va0) n)

/-- The result of `copyin` and the bytes it stored. -/
def copyin (pagetable srcva len : Nat) : Kern (Int × List UInt8) :=
  copyinLoop pagetable len srcva len []

/-- The loop of `copyinstr`, with the bytes copied so far. -/
def copyinstrLoop (pagetable : Nat) : Nat → Nat → Nat → List UInt8 → Kern (Int × List UInt8)
  | _, _, 0, dst => return (-1, dst)
  | 0, _, _ + 1, dst => return (-1, dst)
  | fuel + 1, srcva, max, dst => do
      let va0 := PGROUNDDOWN srcva
      let pa0 ← walkaddr pagetable va0
      if pa0 = 0 then
        return (-1, dst)
      else
        let n := min (PGSIZE - (srcva - va0)) max
        let s ← get
        let bytes := (s.mem pa0).read (srcva - va0) n
        let text := bytes.takeWhile (· ≠ 0)
        if text.length < n then
          return (0, dst ++ text ++ [0])
        else
          copyinstrLoop pagetable fuel (va0 + PGSIZE) (max - n) (dst ++ text)

/-- The result of `copyinstr` and the bytes it stored. -/
def copyinstr (pagetable srcva max : Nat) : Kern (Int × List UInt8) :=
  copyinstrLoop pagetable max srcva max []

end Xv6.Vm
