import Xv6.Lib.Run
import Xv6.Vm.Procs

/-!
# Running a program, and the system calls

`exec` of `kernel/exec.c` and `sys_exec` of `kernel/sysfile.c`, for arbitrary
files.  The part of the file system is given: `namei` and `readi` are functions
of the call.  The last section has the system calls as actions of processes and
the runs of the system.
-/

namespace Xv6.Vm

open Hoare FreeList

/-! ## Files -/

/-- What `readi(ip, 0, dst, off, n)` stores at `dst` for an offset and a length. -/
abbrev FileData := Nat → Nat → List UInt8

/-- The bytes read, at most `n` of them. -/
def readi (f : FileData) (off n : Nat) : List UInt8 := (f off n).take n

/-- The file system as `exec` sees it: the file that a path names. -/
abbrev Namei := List UInt8 → Option FileData

/-! ## `kernel/elf.h` -/

def ELF_MAGIC : Nat := 0x464C457F
def ELF_PROG_LOAD : Nat := 1

/-- `sizeof(struct elfhdr)`. -/
def elfhdrSize : Nat := 64
/-- `sizeof(struct proghdr)`. -/
def proghdrSize : Nat := 56

abbrev Elfhdr := Bytes.Region elfhdrSize

def Elfhdr.magic (e : Elfhdr) : Nat := Bytes.Region.getLe e 0 4
def Elfhdr.entry (e : Elfhdr) : Nat := Bytes.Region.getLe e 24 8
def Elfhdr.phoff (e : Elfhdr) : Nat := Bytes.Region.getLe e 32 8
def Elfhdr.phnum (e : Elfhdr) : Nat := Bytes.Region.getLe e 56 2

abbrev Proghdr := Bytes.Region proghdrSize

def Proghdr.type (ph : Proghdr) : Nat := Bytes.Region.getLe ph 0 4
def Proghdr.flags (ph : Proghdr) : Nat := Bytes.Region.getLe ph 4 4
def Proghdr.off (ph : Proghdr) : Nat := Bytes.Region.getLe ph 8 8
def Proghdr.vaddr (ph : Proghdr) : Nat := Bytes.Region.getLe ph 16 8
def Proghdr.filesz (ph : Proghdr) : Nat := Bytes.Region.getLe ph 32 8
def Proghdr.memsz (ph : Proghdr) : Nat := Bytes.Region.getLe ph 40 8

/-- A structure made of the bytes read. -/
def ofBytes {k : Nat} (bs : List UInt8) : Bytes.Region k :=
  Bytes.Region.write (fun _ => 0) 0 bs

/-! ## `kernel/exec.c` -/

def flags2perm (flags : Nat) : Nat :=
  (if flags &&& 1 ≠ 0 then PTE_X else 0) ||| (if flags &&& 2 ≠ 0 then PTE_W else 0)

/-- The loop of `loadseg`.  `offset` and `i` are `uint`. -/
def loadsegLoop (pagetable va : Nat) (ip : FileData) (offset sz : Nat) : Nat → Nat → Kern Int
  | 0, _ => return 0
  | rounds + 1, i => do
      let pa ← walkaddr pagetable (va + i)
      if pa = 0 then
        throw .loadseg
      else
        let n := if sz - i < PGSIZE then sz - i else PGSIZE
        let bytes := readi ip ((offset + i) % 2 ^ 32) n
        storeBytes pa 0 bytes
        if bytes.length ≠ n then
          return -1
        else
          loadsegLoop pagetable va ip offset sz rounds (i + PGSIZE)

def loadseg (pagetable va : Nat) (ip : FileData) (offset sz : Nat) : Kern Int :=
  loadsegLoop pagetable va ip offset sz ((sz + PGSIZE - 1) / PGSIZE) 0

section

variable (g : Layout)

/-- The loop of `exec` over the program headers, with `k` headers left.  It
returns whether all were loaded, and `sz`.  `off` is an `int`, of which `readi`
sees the low 32 bits. -/
def loadProgram (pagetable : Nat) (ip : FileData) : Nat → Nat → Nat → Kern (Bool × Nat)
  | 0, _, sz => return (true, sz)
  | k + 1, off, sz => do
      let bytes := readi ip off proghdrSize
      if bytes.length ≠ proghdrSize then
        return (false, sz)
      else
        let ph : Proghdr := ofBytes bytes
        let next := (off + proghdrSize) % 2 ^ 32
        if ph.type ≠ ELF_PROG_LOAD then
          loadProgram pagetable ip k next sz
        else if ph.memsz < ph.filesz then
          return (false, sz)
        else if (ph.vaddr + ph.memsz) % 2 ^ 64 < ph.vaddr then
          return (false, sz)
        else if ph.vaddr % PGSIZE ≠ 0 then
          return (false, sz)
        else
          let sz1 ← uvmalloc g pagetable sz ((ph.vaddr + ph.memsz) % 2 ^ 64) (flags2perm ph.flags)
          if sz1 = 0 then
            return (false, sz)
          else
            let r ← loadseg pagetable ph.vaddr ip (ph.off % 2 ^ 32) (ph.filesz % 2 ^ 32)
            if r < 0 then
              return (false, sz1)
            else
              loadProgram pagetable ip k next sz1

/-- The string at the start of a page. -/
def cString (pg : Page) : List UInt8 := Bytes.cString (pg.read 0 PGSIZE)

/-- `sp -= n; sp -= sp % 16`. -/
def pushDown (sp n : Nat) : Nat :=
  let sp := (sp + 2 ^ 64 - n) % 2 ^ 64
  sp - sp % 16

/-- The loop of `exec` over the arguments, each a page with a string.  It returns
the stack pointer and the pointers to the strings. -/
def pushArgs (pagetable stackbase : Nat) : List Nat → Nat → List Nat →
    Kern (Option (Nat × List Nat))
  | [], sp, ustack => return some (sp, ustack)
  | arg :: argv, sp, ustack =>
      if MAXARG ≤ ustack.length then
        return none
      else do
        let s ← get
        let text := cString (s.mem arg)
        let sp := pushDown sp (text.length + 1)
        if sp < stackbase then
          return none
        else
          let r ← copyout pagetable sp (text ++ [0])
          if r < 0 then
            return none
          else
            pushArgs pagetable stackbase argv sp (ustack ++ [sp])

/-- Push the array of pointers to the arguments.  It returns the stack pointer. -/
def pushPointers (pagetable stackbase sp : Nat) (ustack : List Nat) : Kern (Option Nat) :=
  let sp := pushDown sp ((ustack.length + 1) * 8)
  if sp < stackbase then
    return none
  else do
    let r ← copyout pagetable sp ((ustack ++ [0]).flatMap (Bytes.toLe 8))
    if r < 0 then
      return none
    else
      return some sp

/-- The stack of the new program: two pages, the first inaccessible.  It returns
`sz`, and the stack pointer if all went well. -/
def makeStack (pagetable sz : Nat) (argv : List Nat) : Kern (Option Nat × Nat) := do
  let sz := PGROUNDUP sz
  let sz1 ← uvmalloc g pagetable sz (sz + 2 * PGSIZE) PTE_W
  if sz1 = 0 then
    return (none, sz)
  else
    uvmclear pagetable (sz1 - 2 * PGSIZE)
    let stackbase := sz1 - PGSIZE
    match ← pushArgs pagetable stackbase argv sz1 [] with
    | none => return (none, sz1)
    | some (sp, ustack) =>
        let stack ← pushPointers pagetable stackbase sp ustack
        return (stack, sz1)

/-- `exec` for the file that the path names and the arguments in pages. -/
def exec {n : Nat} (p : Fin n) (file : Option FileData) (argv : List Nat) : SysM n Int := do
  match file with
  | none => return -1
  | some ip =>
      let bytes := readi ip 0 elfhdrSize
      let elf : Elfhdr := ofBytes bytes
      if bytes.length ≠ elfhdrSize then
        return -1
      else if elf.magic ≠ ELF_MAGIC then
        return -1
      else
        let s ← get
        let q := s.proc p
        let pagetable ← onKern (proc_pagetable g q.trapframe)
        if pagetable = 0 then
          return -1
        else
          let (loaded, sz) ← onKern (loadProgram g pagetable ip elf.phnum (elf.phoff % 2 ^ 32) 0)
          if loaded = false then
            onKern (proc_freepagetable g pagetable sz)
            return -1
          else
            let (stack, sz) ← onKern (makeStack g pagetable sz argv)
            match stack with
            | none =>
                onKern (proc_freepagetable g pagetable sz)
                return -1
            | some sp =>
                onKern (storeField q.trapframe trapframeA1 8 sp)
                modifyProc p fun q => { q with pagetable := pagetable, sz := sz }
                onKern (storeField q.trapframe trapframeEpc 8 elf.entry)
                onKern (storeField q.trapframe trapframeSp 8 sp)
                onKern (proc_freepagetable g q.pagetable q.sz)
                return argv.length

/-! ## `sys_exec` -/

/-- The word at a user address. -/
def fetchaddr (pagetable sz addr : Nat) : Kern (Option Nat) := do
  if sz ≤ addr ∨ sz < (addr + 8) % 2 ^ 64 then
    return none
  else
    let (r, bytes) ← copyin pagetable addr 8
    if r ≠ 0 then
      return none
    else
      return some (Bytes.ofLe bytes)

/-- The loop of `sys_exec` over `argv`, with `k` slots left.  It returns whether
the end of the vector was found, and the pages allocated. -/
def fetchArgs (pagetable sz uargv : Nat) : Nat → Nat → List Nat → Kern (Bool × List Nat)
  | 0, _, argv => return (false, argv)
  | k + 1, i, argv => do
      match ← fetchaddr pagetable sz ((uargv + 8 * i) % 2 ^ 64) with
      | none => return (false, argv)
      | some uarg =>
          if uarg = 0 then
            return (true, argv)
          else
            let page ← kalloc
            if page = 0 then
              return (false, argv)
            else
              let (r, bytes) ← copyinstr pagetable uarg PGSIZE
              storeBytes page 0 bytes
              if r < 0 then
                return (false, argv ++ [page])
              else
                fetchArgs pagetable sz uargv k (i + 1) (argv ++ [page])

/-- `kfree` for every page of `argv`. -/
def freeArgs : List Nat → Kern Unit
  | [] => return ()
  | page :: argv => do
      kfree g page
      freeArgs argv

/-- The call of `exec`, unless the arguments could not be fetched. -/
def execArgs {n : Nat} (p : Fin n) (file : Option FileData) (found : Bool) (argv : List Nat) :
    SysM n Int :=
  if found then exec g p file argv else return -1

def sys_exec {n : Nat} (p : Fin n) (upath uargv : Nat) (namei : Namei) : SysM n Int := do
  let s ← get
  let q := s.proc p
  let (r, path) ← onKern (copyinstr q.pagetable upath MAXPATH)
  if r < 0 then
    return -1
  else
    let (found, argv) ← onKern (fetchArgs q.pagetable q.sz uargv MAXARG 0 [])
    let ret ← execArgs g p (namei path) found argv
    onKern (freeArgs g argv)
    return ret

/-! ## Actions and runs -/

/-- What a process may do.  `store` is a store of the process to its own memory,
or of another system call on its behalf.  `resume` goes on with the call of
`wait` that the process slept in. -/
inductive Op where
  | fork
  | exec (upath uargv : Nat) (namei : Namei)
  | sbrk (k : Int)
  | exit (status : Int)
  | wait (addr : Nat)
  | pipe (fdarray : Nat)
  | close (fd : Int)
  | kill (pid : Int)
  | store (va : Nat) (bytes : List UInt8)
  | resume

def Op.isResume : Op → Bool
  | .resume => true
  | _ => false

def Op.run {n : Nat} (p : Fin n) : Op → SysM n Unit
  | .fork => do let _ ← Vm.fork g p
  | .exec upath uargv namei => do let _ ← sys_exec g p upath uargv namei
  | .sbrk k => do let _ ← sys_sbrk g p k
  | .exit status => Vm.exit g p status
  | .wait addr => do let _ ← Vm.wait g p addr
  | .pipe fdarray => do let _ ← sys_pipe g p fdarray
  | .close fd => do let _ ← sys_close g p fd
  | .kill pid => do let _ ← Vm.kill pid
  | .store va bytes => do
      let s ← get
      let _ ← onKern (copyout (s.proc p).pagetable va bytes)
  | .resume => do
      let s ← get
      match (s.proc p).waiting with
      | none => return ()
      | some addr =>
          wake p
          let _ ← Vm.wait g p addr

/-- A live process makes a call, or goes on with the one it slept in. -/
def step {n : Nat} (s : Sys n) (a : Fin n × Op) : Option (Sys n) :=
  if (s.proc a.1).state = .runnable ∧ (s.proc a.1).waiting.isSome = a.2.isResume then
    match a.2.run g a.1 s with
    | .ok (_, s') => some s'
    | .error _ => none
  else
    none

/-- The state before `kinit`: no free pages, no processes and no open files. -/
def zeroed (n : Nat) (mem : Nat → Page) : Sys n where
  kern := ⟨mem, 0⟩
  proc _ :=
    { state := .unused, chan := none, killed := false, xstate := 0, pid := 0, parent := none,
      sz := 0, pagetable := 0, trapframe := 0, ofile := fun _ => none, cwd := none,
      waiting := none }
  file _ := { type := .none, ref := 0, readable := false, writable := false, pipe := 0 }
  nextpid := 1
  initproc := none

/-- `k` calls of `kalloc` at boot. -/
def takePages : Nat → Kern (List Nat)
  | 0 => return []
  | k + 1 => do
      let page ← kalloc
      if page = 0 then
        throw .fault
      else
        let pages ← takePages k
        return page :: pages

/-- Boot: build the free list, take the pages of the kernel, and make the first
process.  It returns the pages that were taken. -/
def boot {n : Nat} : SysM n (List Nat) := do
  onKern (kinit g)
  let taken ← onKern (takePages g.bootPages)
  userinit g
  return taken

end

end Xv6.Vm
