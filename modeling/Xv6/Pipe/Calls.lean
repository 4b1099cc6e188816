import Xv6.Lib.Bytes
import Xv6.Lib.Run

/-!
# Pipes

`pipewrite`, `piperead` and `pipeclose` of `kernel/pipe.c`, for one pipe and any
number of calls.  The stretch of a call from one `acquire(&pi->lock)` to the next
`release` or `sleep` is one step.  A call that sleeps keeps its local variables,
and it goes on after a `wakeup` of its channel or after its process was killed.

The memory of the callers is given with the calls: what `copyin` finds at each
byte, and whether `copyout` can store there.  What `killed` returns may change at
any time, so it is given with the step.  The page of the pipe is freed when both ends
are closed; no call can come after that, and the model does not look at it.
-/

namespace Xv6

def PIPESIZE : Nat := 512

/-- `struct pipe` without its lock. -/
structure Pipe where
  data : Bytes.Region PIPESIZE
  nread : Nat
  nwrite : Nat
  readopen : Bool
  writeopen : Bool

namespace Pipe

/-- `uint` arithmetic wraps here. -/
def UINT : Nat := 2 ^ 32

/-- How a stretch ends: the call returns, or sleeps. -/
inductive Ends where
  | ret (r : Int)
  | sleep
  deriving DecidableEq

/-! ## `pipewrite` -/

/-- `pi->data[pi->nwrite++ % PIPESIZE] = ch`. -/
def put (pi : Pipe) (ch : UInt8) : Pipe :=
  { pi with
    data := pi.data.write (pi.nwrite % PIPESIZE) [ch]
    nwrite := (pi.nwrite + 1) % UINT }

/-- The result of a stretch of `pipewrite`: the pipe, `i`, the bytes that were
stored, and how it ended. -/
structure Wrote where
  pipe : Pipe
  i : Nat
  bytes : List UInt8
  ends : Ends

/-- The loop of `pipewrite` with `k = n - i` bytes left.  `src` is the memory of
the caller from `addr` on. -/
def pipewrite (src : Nat → Option UInt8) (killed : Nat → Bool) : Nat → Pipe → Nat → Wrote
  | 0, pi, i => ⟨pi, i, [], .ret i⟩
  | k + 1, pi, i =>
      if pi.readopen = false ∨ killed i then
        ⟨pi, i, [], .ret (-1)⟩
      else if pi.nwrite = (pi.nread + PIPESIZE) % UINT then
        ⟨pi, i, [], .sleep⟩
      else
        match src i with
        | none => ⟨pi, i, [], .ret i⟩
        | some ch =>
            let w := pipewrite src killed k (pi.put ch) (i + 1)
            { w with bytes := ch :: w.bytes }

/-! ## `piperead` -/

/-- The result of a stretch of `piperead`: the pipe, the bytes that were taken
out, and how it ended. -/
structure Read where
  pipe : Pipe
  bytes : List UInt8
  ends : Ends

/-- The copying loop of `piperead` with `k = n - i` bytes left.  A byte that
`copyout` cannot store is lost. -/
def pipereadCopy (dst : Nat → Bool) : Nat → Pipe → Nat → Read
  | 0, pi, i => ⟨pi, [], .ret i⟩
  | k + 1, pi, i =>
      if pi.nread = pi.nwrite then
        ⟨pi, [], .ret i⟩
      else
        let ch := pi.data.get (pi.nread % PIPESIZE)
        let pi' := { pi with nread := (pi.nread + 1) % UINT }
        if dst i then
          let r := pipereadCopy dst k pi' (i + 1)
          { r with bytes := ch :: r.bytes }
        else
          ⟨pi', [ch], .ret i⟩

/-- A stretch of `piperead`, from the test for an empty pipe on. -/
def piperead (dst : Nat → Bool) (killed : Bool) (n : Int) (pi : Pipe) : Read :=
  if pi.nread = pi.nwrite ∧ pi.writeopen then
    if killed then ⟨pi, [], .ret (-1)⟩ else ⟨pi, [], .sleep⟩
  else
    pipereadCopy dst n.toNat pi 0

/-! ## Calls -/

/-- A call of `pipewrite` or `piperead`. -/
inductive Call where
  | write (n : Int) (src : Nat → Option UInt8)
  | read (n : Int) (dst : Nat → Bool)

/-- Where a call is.  A writer has stored `i` bytes. -/
inductive Pc where
  | ready (i : Nat)
  | asleep (i : Nat)
  | returned (r : Int)
  deriving DecidableEq

/-- The pipe, the calls, and what was stored and taken out so far. -/
structure State (ι : Type) where
  pipe : Pipe
  pc : ι → Pc
  stored : List (ι × UInt8)
  taken : List UInt8

/-- What happens next. -/
inductive Act (ι : Type) where
  /-- A stretch of a call, with what `killed` returns in it. -/
  | run (c : ι) (killed : Nat → Bool)
  | close (writable : Bool)
  /-- The process of a call is killed. -/
  | kill (c : ι)

section

variable {ι : Type} [DecidableEq ι] (call : ι → Call)

/-- `wakeup(&pi->nread)`. -/
def wakeReaders (pc : ι → Pc) (c : ι) : Pc :=
  match call c, pc c with
  | .read _ _, .asleep i => .ready i
  | _, p => p

/-- `wakeup(&pi->nwrite)`. -/
def wakeWriters (pc : ι → Pc) (c : ι) : Pc :=
  match call c, pc c with
  | .write _ _, .asleep i => .ready i
  | _, p => p

/-- Where a call is after a stretch. -/
def Ends.pc (i : Nat) : Ends → Pc
  | .ret r => .returned r
  | .sleep => .asleep i

/-- `pipewrite` wakes the readers before it sleeps and before it returns, except
with `-1`. -/
def Ends.wakes (e : Ends) : Bool := e ≠ .ret (-1)

/-- The next state, or `none` if the step is not possible. -/
def step (s : State ι) : Act ι → Option (State ι)
  | .run c killed =>
      match s.pc c, call c with
      | .ready i, .write n src =>
          let w := pipewrite src killed (n - i).toNat s.pipe i
          let pc := if w.ends.wakes then wakeReaders call s.pc else s.pc
          some { s with
            pipe := w.pipe
            pc := Function.update pc c (w.ends.pc w.i)
            stored := s.stored ++ w.bytes.map (c, ·) }
      | .ready i, .read n dst =>
          let r := piperead dst (killed 0) n s.pipe
          let pc := if r.ends.wakes ∧ r.ends ≠ .sleep then wakeWriters call s.pc else s.pc
          some { s with
            pipe := r.pipe
            pc := Function.update pc c (r.ends.pc i)
            taken := s.taken ++ r.bytes }
      | _, _ => none
  | .close true =>
      some { s with
        pipe := { s.pipe with writeopen := false }
        pc := wakeReaders call s.pc }
  | .close false =>
      some { s with
        pipe := { s.pipe with readopen := false }
        pc := wakeWriters call s.pc }
  | .kill c =>
      match s.pc c with
      | .asleep i => some { s with pc := Function.update s.pc c (.ready i) }
      | _ => some s

end

/-- A new pipe, before any call has started. -/
def init (ι : Type) (data : Bytes.Region PIPESIZE) : State ι where
  pipe := ⟨data, 0, 0, true, true⟩
  pc _ := .ready 0
  stored := []
  taken := []

end Pipe

end Xv6
