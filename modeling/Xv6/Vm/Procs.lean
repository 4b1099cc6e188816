import Xv6.Proc.Threads
import Xv6.Vm.PageTable

/-!
# Processes, open files and pipes

The parts of `kernel/proc.c`, `kernel/file.c`, `kernel/pipe.c` and
`kernel/sysfile.c` that allocate, share and free memory.  A system call is one
step here, so locks are left out, and a live process is `RUNNABLE` between its
calls.  Only `wait` sleeps; a process that was woken goes on with it.  Of
`struct proc` the fields that these functions use are kept, except the name.  Of
`struct file` the inode, the offset and the device number are left out, and a
current directory is an entry of the inode table, which is left out itself.
-/

namespace Xv6.Vm

open Hoare FreeList

/-- Max exec arguments. -/
def MAXARG : Nat := 32
/-- Maximum file path name. -/
def MAXPATH : Nat := 128

/-! ## The state -/

/-- The type of a `struct file`. -/
inductive FdType where
  | none
  | pipe
  | inode
  | device
  deriving DecidableEq, Repr

structure File where
  type : FdType
  ref : Nat
  readable : Bool
  writable : Bool
  pipe : Nat

structure Proc (n : Nat) where
  state : ProcState
  chan : Option (Fin n)
  killed : Bool
  xstate : Int
  pid : Int
  parent : Option (Fin n)
  sz : Nat
  pagetable : Nat
  trapframe : Nat
  ofile : Fin NOFILE → Option (Fin NFILE)
  cwd : Option (Fin NINODE)
  /-- The saved context: the argument of the call of `wait` that the process
  sleeps in. -/
  waiting : Option Nat

structure Sys (n : Nat) where
  kern : Machine
  proc : Fin n → Proc n
  file : Fin NFILE → File
  nextpid : Int
  initproc : Option (Fin n)

/-- The code that works on the whole state. -/
abbrev SysM (n : Nat) := Prog (Sys n) Panic

variable {n : Nat}

def Sys.setKern (s : Sys n) (k : Machine) : Sys n := { s with kern := k }

/-- Run code of the memory layer. -/
def onKern {α : Type} (x : Kern α) : SysM n α := zoom Sys.kern Sys.setKern x

def Sys.setProc (s : Sys n) (p : Fin n) (q : Proc n) : Sys n :=
  { s with proc := Function.update s.proc p q }

def Sys.setFile (s : Sys n) (f : Fin NFILE) (x : File) : Sys n :=
  { s with file := Function.update s.file f x }

def modifyProc (p : Fin n) (u : Proc n → Proc n) : SysM n Unit :=
  modify fun s => s.setProc p (u (s.proc p))

def modifyFile (f : Fin NFILE) (u : File → File) : SysM n Unit :=
  modify fun s => s.setFile f (u (s.file f))

def Proc.setOfile (q : Proc n) (fd : Fin NOFILE) (f : Option (Fin NFILE)) : Proc n :=
  { q with ofile := Function.update q.ofile fd f }

/-- Store a field of a structure that is at the start of a page. -/
def storeField (pa off w v : Nat) : Kern Unit := do
  let s ← get
  setPage pa ((s.mem pa).setLe off w v)

/-- Load a field of a structure that is at the start of a page. -/
def loadField (pa off w : Nat) : Kern Nat := do
  let s ← get
  return (s.mem pa).getLe off w

/-! ## Offsets of fields in bytes -/

/-- `sizeof(struct trapframe)`. -/
def trapframeSize : Nat := 288
def trapframeEpc : Nat := 24
def trapframeSp : Nat := 48
def trapframeA0 : Nat := 112
def trapframeA1 : Nat := 120

def pipeLocked : Nat := 0
def pipeCpu : Nat := 16
def pipeNread : Nat := 536
def pipeNwrite : Nat := 540
def pipeReadopen : Nat := 544
def pipeWriteopen : Nat := 548

/-! ## `kernel/file.c` and `kernel/pipe.c` -/

section

variable (g : Layout)

def filealloc : SysM n (Option (Fin NFILE)) := do
  let s ← get
  match (List.finRange NFILE).find? fun f => (s.file f).ref = 0 with
  | none => return none
  | some f =>
      modifyFile f fun x => { x with ref := 1 }
      return some f

def filedup (f : Fin NFILE) : SysM n Unit := do
  let s ← get
  if (s.file f).ref < 1 then
    throw .filedup
  else
    modifyFile f fun x => { x with ref := x.ref + 1 }

def pipeclose (pi : Nat) (writable : Bool) : Kern Unit := do
  storeField pi (if writable then pipeWriteopen else pipeReadopen) 4 0
  let readopen ← loadField pi pipeReadopen 4
  let writeopen ← loadField pi pipeWriteopen 4
  if readopen = 0 ∧ writeopen = 0 then
    kfree g pi

def fileclose (f : Fin NFILE) : SysM n Unit := do
  let s ← get
  let ff := s.file f
  if ff.ref < 1 then
    throw .fileclose
  else if 0 < ff.ref - 1 then
    modifyFile f fun x => { x with ref := x.ref - 1 }
  else
    modifyFile f fun x => { x with ref := 0, type := .none }
    match ff.type with
    | .pipe => onKern (pipeclose g ff.pipe ff.writable)
    -- `iput(ff.ip)` has no effect on memory pages
    | .inode | .device => return ()
    | .none => return ()

/-- `pi->readopen = 1` and the other stores to a new pipe.  The name of the lock
is left out. -/
def pipeinit (pi : Nat) : Kern Unit := do
  storeField pi pipeReadopen 4 1
  storeField pi pipeWriteopen 4 1
  storeField pi pipeNwrite 4 0
  storeField pi pipeNread 4 0
  storeField pi pipeLocked 4 0
  storeField pi pipeCpu 8 0

/-- The two ends of a new pipe, the one for reading first. -/
def pipealloc : SysM n (Option (Fin NFILE × Fin NFILE)) := do
  match ← filealloc with
  | none => return none
  | some f0 =>
      match ← filealloc with
      | none =>
          fileclose g f0
          return none
      | some f1 =>
          let pi ← onKern kalloc
          if pi = 0 then
            fileclose g f0
            fileclose g f1
            return none
          else
            onKern (pipeinit pi)
            modifyFile f0 fun x =>
              { x with type := .pipe, readable := true, writable := false, pipe := pi }
            modifyFile f1 fun x =>
              { x with type := .pipe, readable := false, writable := true, pipe := pi }
            return some (f0, f1)

/-! ## `kernel/sysfile.c` -/

def fdalloc (p : Fin n) (f : Fin NFILE) : SysM n (Option (Fin NOFILE)) := do
  let s ← get
  match (List.finRange NOFILE).find? fun fd => ((s.proc p).ofile fd).isNone with
  | none => return none
  | some fd =>
      modifyProc p fun q => q.setOfile fd (some f)
      return some fd

/-- Tell the process the numbers of its two descriptors. -/
def copyoutFds (pagetable fdarray fd0 fd1 : Nat) : Kern Int := do
  let r ← copyout pagetable fdarray (Bytes.toLe 4 fd0)
  if r < 0 then
    return r
  else
    copyout pagetable ((fdarray + 4) % 2 ^ 64) (Bytes.toLe 4 fd1)

def sys_pipe (p : Fin n) (fdarray : Nat) : SysM n Int := do
  match ← pipealloc g with
  | none => return -1
  | some (rf, wf) =>
      match ← fdalloc p rf with
      | none =>
          fileclose g rf
          fileclose g wf
          return -1
      | some fd0 =>
          match ← fdalloc p wf with
          | none =>
              modifyProc p fun q => q.setOfile fd0 none
              fileclose g rf
              fileclose g wf
              return -1
          | some fd1 =>
              let s ← get
              let r ← onKern (copyoutFds (s.proc p).pagetable fdarray fd0 fd1)
              if r < 0 then
                modifyProc p fun q => q.setOfile fd0 none
                modifyProc p fun q => q.setOfile fd1 none
                fileclose g rf
                fileclose g wf
                return -1
              else
                return 0

def sys_close (p : Fin n) (fd : Int) : SysM n Int := do
  let s ← get
  if h : 0 ≤ fd ∧ fd.toNat < NOFILE then
    match (s.proc p).ofile ⟨fd.toNat, h.2⟩ with
    | none => return -1
    | some f =>
        modifyProc p fun q => q.setOfile ⟨fd.toNat, h.2⟩ none
        fileclose g f
        return 0
  else
    return -1

/-! ## `kernel/proc.c` -/

/-- `pid` is an `int`. -/
def allocpid : SysM n Int := do
  let s ← get
  set { s with nextpid := Int.bmod (s.nextpid + 1) (2 ^ 32) }
  return s.nextpid

/-- `proc_pagetable(p)` for a process with the given trapframe. -/
def proc_pagetable (trapframe : Nat) : Kern Nat := do
  let pagetable ← uvmcreate
  if pagetable = 0 then
    return 0
  else
    let r ← mappages pagetable TRAMPOLINE PGSIZE g.trampoline (PTE_R ||| PTE_X)
    if r < 0 then
      uvmfree g pagetable 0
      return 0
    else
      let r ← mappages pagetable TRAPFRAME PGSIZE trapframe (PTE_R ||| PTE_W)
      if r < 0 then
        uvmunmap g pagetable TRAMPOLINE 1 false
        uvmfree g pagetable 0
        return 0
      else
        return pagetable

def proc_freepagetable (pagetable sz : Nat) : Kern Unit := do
  uvmunmap g pagetable TRAMPOLINE 1 false
  uvmunmap g pagetable TRAPFRAME 1 false
  uvmfree g pagetable sz

def freeproc (p : Fin n) : SysM n Unit := do
  let s ← get
  let q := s.proc p
  whenever (q.trapframe ≠ 0) (onKern (kfree g q.trapframe))
  modifyProc p fun q => { q with trapframe := 0 }
  whenever (q.pagetable ≠ 0) (onKern (proc_freepagetable g q.pagetable q.sz))
  modifyProc p fun q =>
    { q with
      pagetable := 0, sz := 0, pid := 0, parent := none, chan := none, killed := false,
      xstate := 0, state := .unused }

def allocproc : SysM n (Option (Fin n)) := do
  let s ← get
  match (List.finRange n).find? fun p => (s.proc p).state = .unused with
  | none => return none
  | some p =>
      let pid ← allocpid
      modifyProc p fun q => { q with pid := pid, state := .used }
      let trapframe ← onKern kalloc
      modifyProc p fun q => { q with trapframe := trapframe }
      if trapframe = 0 then
        freeproc g p
        return none
      else
        let pagetable ← onKern (proc_pagetable g trapframe)
        modifyProc p fun q => { q with pagetable := pagetable }
        if pagetable = 0 then
          freeproc g p
          return none
        else
          modifyProc p fun q => { q with waiting := none }
          return some p

/-- `../user/initcode`, assembled. -/
def initcode : List UInt8 :=
  [0x17, 0x05, 0x00, 0x00, 0x13, 0x05, 0x45, 0x02,
    0x97, 0x05, 0x00, 0x00, 0x93, 0x85, 0x35, 0x02,
    0x93, 0x08, 0x70, 0x00, 0x73, 0x00, 0x00, 0x00,
    0x93, 0x08, 0x20, 0x00, 0x73, 0x00, 0x00, 0x00,
    0xef, 0xf0, 0x9f, 0xff, 0x2f, 0x69, 0x6e, 0x69,
    0x74, 0x00, 0x00, 0x24, 0x00, 0x00, 0x00, 0x00,
    0x00, 0x00, 0x00, 0x00]

/-- `userinit` uses the process without a test.  The inode table is empty, so the
root directory gets its first entry. -/
def userinit : SysM n Unit := do
  let p ← allocproc g
  modify fun s => { s with initproc := p }
  match p with
  | none => throw .fault
  | some p =>
      let s ← get
      let q := s.proc p
      onKern (uvmfirst q.pagetable initcode)
      modifyProc p fun q => { q with sz := PGSIZE }
      onKern (storeField q.trapframe trapframeEpc 8 0)
      onKern (storeField q.trapframe trapframeSp 8 PGSIZE)
      modifyProc p fun q => { q with cwd := some ⟨0, by decide⟩ }
      modifyProc p fun q => { q with state := .runnable }

/-- `sz + n` is computed in `uint64`. -/
def growproc (p : Fin n) (k : Int) : SysM n Int := do
  let s ← get
  let q := s.proc p
  let newsz := ((q.sz + k) % 2 ^ 64).toNat
  if 0 < k then
    let sz ← onKern (uvmalloc g q.pagetable q.sz newsz PTE_W)
    if sz = 0 then
      return -1
    else
      modifyProc p fun q => { q with sz := sz }
      return 0
  else if k < 0 then
    let sz ← onKern (uvmdealloc g q.pagetable q.sz newsz)
    modifyProc p fun q => { q with sz := sz }
    return 0
  else
    return 0

def sys_sbrk (p : Fin n) (k : Int) : SysM n Int := do
  let s ← get
  let r ← growproc g p k
  if r < 0 then
    return -1
  else
    return (s.proc p).sz

/-- The loop of `fork` over the open files of `p`. -/
def forkFiles (p np : Fin n) : List (Fin NOFILE) → SysM n Unit
  | [] => return ()
  | fd :: fds => do
      let s ← get
      match (s.proc p).ofile fd with
      | none => pure ()
      | some f =>
          filedup f
          modifyProc np fun q => q.setOfile fd (some f)
      forkFiles p np fds

/-- `*(np->trapframe) = *(p->trapframe); np->trapframe->a0 = 0`. -/
def copyTrapframe (np p : Nat) : Kern Unit := do
  let s ← get
  storeBytes np 0 ((s.mem p).read 0 trapframeSize)
  storeField np trapframeA0 8 0

def fork (p : Fin n) : SysM n Int := do
  match ← allocproc g with
  | none => return -1
  | some np =>
      let s ← get
      let q := s.proc p
      let nq := s.proc np
      let r ← onKern (uvmcopy g q.pagetable nq.pagetable q.sz)
      if r < 0 then
        freeproc g np
        return -1
      else
        modifyProc np fun x => { x with sz := q.sz }
        onKern (copyTrapframe nq.trapframe q.trapframe)
        forkFiles p np (List.finRange NOFILE)
        modifyProc np fun x => { x with cwd := q.cwd }
        modifyProc np fun x => { x with parent := some p }
        modifyProc np fun x => { x with state := .runnable }
        return nq.pid

/-- The loop of `exit` over the open files. -/
def exitFiles (p : Fin n) : List (Fin NOFILE) → SysM n Unit
  | [] => return ()
  | fd :: fds => do
      let s ← get
      match (s.proc p).ofile fd with
      | none => pure ()
      | some f =>
          fileclose g f
          modifyProc p fun q => q.setOfile fd none
      exitFiles p fds

/-- `wakeup(chan)`, called by `p`. -/
def wakeup (p : Fin n) (chan : Option (Fin n)) : SysM n Unit :=
  modify fun s =>
    { s with
      proc := fun pp =>
        if pp ≠ p ∧ (s.proc pp).state = .sleeping ∧ (s.proc pp).chan = chan then
          { s.proc pp with state := .runnable }
        else s.proc pp }

/-- The loop of `reparent`, which passes the children of `p` to init. -/
def reparent (p : Fin n) : List (Fin n) → SysM n Unit
  | [] => return ()
  | pp :: pps => do
      let s ← get
      whenever ((s.proc pp).parent = some p) do
        modifyProc pp fun q => { q with parent := s.initproc }
        wakeup p s.initproc
      reparent p pps

def exit (p : Fin n) (status : Int) : SysM n Unit := do
  let s ← get
  if s.initproc = some p then
    throw .initExiting
  else
    exitFiles g p (List.finRange NOFILE)
    modifyProc p fun q => { q with cwd := none }
    reparent p (List.finRange n)
    let s ← get
    wakeup p (s.proc p).parent
    modifyProc p fun q => { q with xstate := status, state := .zombie }

/-- `addr != 0 && copyout(p->pagetable, addr, (char *)&pp->xstate, ..) < 0`. -/
def copyoutStatus (pagetable addr : Nat) (xstate : Int) : Kern Int :=
  if addr = 0 then pure 0 else copyout pagetable addr (Bytes.toLe 4 (xstate % 2 ^ 32).toNat)

/-- `wait` returns, or sleeps (`none`). -/
def wait (p : Fin n) (addr : Nat) : SysM n (Option Int) := do
  let s ← get
  match (List.finRange n).find? fun pp =>
      (s.proc pp).parent = some p ∧ (s.proc pp).state = .zombie with
  | some pp =>
      let pid := (s.proc pp).pid
      let r ← onKern (copyoutStatus (s.proc p).pagetable addr (s.proc pp).xstate)
      if r < 0 then
        return some (-1)
      else
        freeproc g pp
        return some pid
  | none =>
      let havekids := (List.finRange n).any fun pp => (s.proc pp).parent = some p
      if havekids = false ∨ (s.proc p).killed then
        return some (-1)
      else
        modifyProc p fun q => { q with chan := some p, state := .sleeping, waiting := some addr }
        return none

/-- The end of `sleep` for a process that was woken in `wait(addr)`. -/
def wake (p : Fin n) : SysM n Unit :=
  modifyProc p fun q => { q with chan := none, waiting := none }

def kill (pid : Int) : SysM n Int := do
  let s ← get
  match (List.finRange n).find? fun p => (s.proc p).pid = pid with
  | none => return -1
  | some p =>
      modifyProc p fun q =>
        { q with
          killed := true
          state := if q.state = .sleeping then .runnable else q.state }
      return 0

end

end Xv6.Vm
