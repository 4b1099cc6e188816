import Xv6.Lib.Bytes
import Xv6.Lib.Run

/-!
# Console input

`consoleintr` and `consoleread` of `kernel/console.c`, for any number of calls.
`cons.lock` is held during the whole of `consoleintr`, which `uartintr` calls with each
character of the UART.  The stretch of a `consoleread` from one `acquire` to the next
`release` or `sleep` is one step.  A call that sleeps goes on after the `wakeup` in
`consoleintr` or after its process was killed.

Whether `either_copyout` can store a byte is given with the calls, and what `killed`
returns with the step.  The echo and the list of processes that `^P` prints go to the
UART and are not modelled.
-/

namespace Xv6.Console

def INPUT_BUF_SIZE : Nat := 128

/-- `uint` arithmetic wraps here. -/
def UINT : Nat := 2 ^ 32

/-- The difference of two `uint`s. -/
def diff (a b : Nat) : Nat := (a + UINT - b) % UINT

/-- `C(x)`. -/
def ctrl (x : Char) : UInt8 := x.toUInt8 - '@'.toUInt8

def LF : UInt8 := '\n'.toUInt8

def CR : UInt8 := '\r'.toUInt8

def DEL : UInt8 := 0x7f

/-- `cons` without its lock. -/
structure Cons where
  buf : Bytes.Region INPUT_BUF_SIZE
  /-- Read index. -/
  r : Nat
  /-- Write index. -/
  w : Nat
  /-- Edit index. -/
  e : Nat

namespace Cons

/-- `cons.buf[i % INPUT_BUF_SIZE]`. -/
def char (k : Cons) (i : Nat) : UInt8 := k.buf.get (i % INPUT_BUF_SIZE)

/-! ## `consoleintr` -/

/-- The loop of `^U`.  Each round brings `cons.e` nearer to `cons.w`, so `cons.e - cons.w`
rounds are enough. -/
def killLine : Nat → Cons → Cons
  | 0, k => k
  | fuel + 1, k =>
      if k.e ≠ k.w ∧ k.char (diff k.e 1) ≠ LF then killLine fuel { k with e := diff k.e 1 } else k

/-- `cons.buf[cons.e++ % INPUT_BUF_SIZE] = c`. -/
def put (k : Cons) (c : UInt8) : Cons :=
  { k with
    buf := k.buf.write (k.e % INPUT_BUF_SIZE) [c]
    e := (k.e + 1) % UINT }

/-- `consoleintr`, and whether it calls `wakeup(&cons.r)`. -/
def consoleintr (k : Cons) (c : UInt8) : Cons × Bool :=
  if c = ctrl 'P' then (k, false)
  else if c = ctrl 'U' then (killLine (diff k.e k.w) k, false)
  else if c = ctrl 'H' ∨ c = DEL then
    if k.e ≠ k.w then ({ k with e := diff k.e 1 }, false) else (k, false)
  else if c ≠ 0 ∧ diff k.e k.r < INPUT_BUF_SIZE then
    let c := if c = CR then LF else c
    let k := k.put c
    if c = LF ∨ c = ctrl 'D' ∨ diff k.e k.r = INPUT_BUF_SIZE then ({ k with w := k.e }, true)
    else (k, false)
  else (k, false)

end Cons

/-! ## `consoleread` -/

/-- How a stretch ends: the call returns, or sleeps. -/
inductive Ends where
  | ret (v : Int)
  | sleep
  deriving DecidableEq

/-- The result of a stretch of `consoleread`: `cons`, `n`, the characters that were taken
and not put back, and how it ended. -/
structure Read where
  cons : Cons
  n : Nat
  bytes : List UInt8
  ends : Ends

/-- A stretch of `consoleread` with `n` bytes left.  A character that cannot be stored is
lost. -/
def consoleread (dst : Nat → Bool) (killed : Bool) (target : Nat) : Nat → Cons → Read
  | 0, k => ⟨k, 0, [], .ret target⟩
  | n + 1, k =>
      if k.r = k.w then
        if killed then ⟨k, n + 1, [], .ret (-1)⟩ else ⟨k, n + 1, [], .sleep⟩
      else
        let c := k.char k.r
        let k' := { k with r := (k.r + 1) % UINT }
        if c = ctrl 'D' then
          if n + 1 < target then
            ⟨{ k' with r := diff k'.r 1 }, n + 1, [], .ret (target - (n + 1 : Nat))⟩
          else ⟨k', n + 1, [c], .ret (target - (n + 1 : Nat))⟩
        else if dst (target - (n + 1)) = false then
          ⟨k', n + 1, [c], .ret (target - (n + 1 : Nat))⟩
        else if c = LF then ⟨k', n, [c], .ret (target - (n : Nat))⟩
        else
          let r := consoleread dst killed target n k'
          { r with bytes := c :: r.bytes }

/-! ## Calls -/

/-- A call of `consoleread`. -/
structure Call where
  n : Int
  dst : Nat → Bool

/-- Where a call is, with the bytes left. -/
inductive Pc where
  | ready (n : Nat)
  | asleep (n : Nat)
  | returned (v : Int)
  deriving DecidableEq

/-- What happened to the characters. -/
inductive Event (ι : Type) where
  | received (c : UInt8)
  | took (i : ι) (c : UInt8)

structure State (ι : Type) where
  cons : Cons
  pc : ι → Pc
  events : List (Event ι)

/-- What happens next. -/
inductive Act (ι : Type) where
  /-- The UART has a character. -/
  | intr (c : UInt8)
  /-- A stretch of a call, with what `killed` returns in it. -/
  | run (i : ι) (killed : Bool)
  /-- The process of a call is killed. -/
  | kill (i : ι)

/-- A sleeping call goes on. -/
def Pc.wake : Pc → Pc
  | .asleep n => .ready n
  | p => p

/-- Where a call is after a stretch. -/
def Read.pc (r : Read) : Pc :=
  match r.ends with
  | .ret v => .returned v
  | .sleep => .asleep r.n

section

variable {ι : Type} [DecidableEq ι] (call : ι → Call)

/-- The next state, or `none` if the step is not possible. -/
def step (s : State ι) : Act ι → Option (State ι)
  | .intr c =>
      let (k, wakes) := s.cons.consoleintr c
      some { s with
        cons := k
        pc := if wakes then fun i => (s.pc i).wake else s.pc
        events := s.events ++ [.received c] }
  | .run i killed =>
      match s.pc i with
      | .ready n =>
          let r := consoleread (call i).dst killed (call i).n.toNat n s.cons
          some { s with
            cons := r.cons
            pc := Function.update s.pc i r.pc
            events := s.events ++ r.bytes.map (.took i) }
      | _ => none
  | .kill i => some { s with pc := Function.update s.pc i (s.pc i).wake }

end

/-- Before any input and any call. -/
def init {ι : Type} (call : ι → Call) (buf : Bytes.Region INPUT_BUF_SIZE) : State ι where
  cons := ⟨buf, 0, 0, 0⟩
  pc i := .ready (call i).n.toNat
  events := []

end Xv6.Console
