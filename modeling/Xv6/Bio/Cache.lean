import Xv6.Lib.Circular
import Xv6.Lib.Run
import Xv6.Param

/-!
# The buffer cache

`kernel/bio.c` with any number of processes.  Each section under `bcache.lock` is one
step, and so are getting and releasing the sleep-lock of a buffer and a transfer
by the disk driver.  A process may hold several buffers, and it is in at most one call.

`refcnt` is a natural number here: it counts references of processes and pins, and
there are never `2 ^ 32` of them.

The fields `pins`, `clock` and `released` are history: no step of the code reads them.
-/

namespace Xv6.Bio

/-- Size of disk block cache. -/
def NBUF : Nat := MAXOPBLOCKS * 3

/-- `struct buf`, without its links and its lock. -/
structure Buf where
  valid : Bool
  dev : Nat
  blockno : Nat
  refcnt : Nat
  data : Block

/-! ## The list of buffers -/

/-- A `struct buf *`. -/
inductive Node where
  | head
  | buf (b : Fin NBUF)
  deriving DecidableEq

/-- The fields `next` and `prev` of `bcache.head` and of the buffers. -/
structure Links where
  next : Node → Node
  prev : Node → Node

/-- `b->next->prev = b->prev; b->prev->next = b->next`. -/
def Links.unlink (k : Links) (b : Fin NBUF) : Links :=
  let prev := Function.update k.prev (k.next (.buf b)) (k.prev (.buf b))
  ⟨Function.update k.next (prev (.buf b)) (k.next (.buf b)), prev⟩

/-- `b->next = head.next; b->prev = &head; head.next->prev = b; head.next = b`. -/
def Links.linkFirst (k : Links) (b : Fin NBUF) : Links :=
  let next := Function.update k.next (.buf b) (k.next .head)
  let prev := Function.update k.prev (.buf b) .head
  ⟨Function.update next .head (.buf b), Function.update prev (next .head) (.buf b)⟩

/-- The links that `binit` makes.  At first they are null pointers, for which `head`
stands here. -/
def binit : Links :=
  (List.finRange NBUF).foldl Links.linkFirst ⟨fun _ => .head, fun _ => .head⟩

/-- Test a buffer; the loops do not get to the head. -/
def Node.test (f : Fin NBUF → Bool) : Node → Bool
  | .head => false
  | .buf b => f b

/-! ## States -/

/-- Where a process is. -/
inductive Pc where
  | idle
  /-- In `acquiresleep(&b->lock)`, called by `bget`. -/
  | acquire (b : Fin NBUF)
  /-- In `virtio_disk_rw(b, 0)`, called by `bread`. -/
  | load (b : Fin NBUF)
  /-- In `brelse`, after `releasesleep`. -/
  | release (b : Fin NBUF)
  deriving DecidableEq

/-- The cache, its users and the disk. -/
structure State (n : Nat) where
  buf : Fin NBUF → Buf
  /-- The holders of the sleep-locks. -/
  lock : Fin NBUF → Option (Fin n)
  links : Links
  disk : Disk
  pc : Fin n → Pc
  panic : Option String
  /-- Calls of `bpin` that no `bunpin` has undone. -/
  pins : Fin NBUF → Nat
  /-- The number of the next release. -/
  clock : Nat
  /-- The number of the last release by `brelse`; before the first one, the place
  that `binit` gave the buffer. -/
  released : Fin NBUF → Nat

/-- What a process does next. -/
inductive Act (n : Nat) where
  /-- `bread`, up to `acquiresleep`. -/
  | bread (p : Fin n) (dev blockno : Nat)
  /-- `acquiresleep` gets the lock. -/
  | acquire (p : Fin n)
  /-- The disk has read the block, and `bread` returns. -/
  | load (p : Fin n)
  /-- The holder writes to `b->data`. -/
  | modify (p : Fin n) (b : Fin NBUF) (data : Block)
  | bwrite (p : Fin n) (b : Fin NBUF)
  /-- `brelse`, up to `releasesleep`. -/
  | brelse (p : Fin n) (b : Fin NBUF)
  /-- The section of `brelse` under `bcache.lock`. -/
  | release (p : Fin n)
  | bpin (p : Fin n) (b : Fin NBUF)
  | bunpin (p : Fin n) (b : Fin NBUF)

namespace State

variable {n : Nat}

def setBuf (s : State n) (b : Fin NBUF) (v : Buf) : State n :=
  { s with buf := Function.update s.buf b v }

def goto (s : State n) (p : Fin n) (pc : Pc) : State n :=
  { s with pc := Function.update s.pc p pc }

def setLock (s : State n) (b : Fin NBUF) (o : Option (Fin n)) : State n :=
  { s with lock := Function.update s.lock b o }

/-- What the section of `bget` comes to. -/
inductive Got where
  | cached (b : Fin NBUF)
  | recycle (b : Fin NBUF)
  | noBuffers

/-- The two loops of `bget`.  `none`: a loop does not end. -/
def bget (s : State n) (dev blockno : Nat) : Option Got :=
  let cached := Node.test fun b => (s.buf b).dev = dev ∧ (s.buf b).blockno = blockno
  let unused := Node.test fun b => (s.buf b).refcnt = 0
  (Circular.scan s.links.next .head cached (NBUF + 1) (s.links.next .head)).bind fun
    | some (.buf b) => some (.cached b)
    | _ => (Circular.scan s.links.prev .head unused (NBUF + 1) (s.links.prev .head)).map fun
      | some (.buf b) => .recycle b
      | _ => .noBuffers

/-- `b->refcnt++`. -/
def ref (s : State n) (b : Fin NBUF) : State n :=
  s.setBuf b { s.buf b with refcnt := (s.buf b).refcnt + 1 }

/-- `b->refcnt--`. -/
def unref (s : State n) (b : Fin NBUF) : State n :=
  s.setBuf b { s.buf b with refcnt := (s.buf b).refcnt - 1 }

/-- The buffer is given to another block. -/
def recycle (s : State n) (b : Fin NBUF) (dev blockno : Nat) : State n :=
  s.setBuf b { s.buf b with dev := dev, blockno := blockno, valid := false, refcnt := 1 }

/-- The buffer is moved to the head of the list. -/
def toFront (s : State n) (b : Fin NBUF) : State n :=
  { s with links := (s.links.unlink b).linkFirst b }

/-- The time of a release is recorded. -/
def stamp (s : State n) (b : Fin NBUF) : State n :=
  { s with clock := s.clock + 1, released := Function.update s.released b s.clock }

def setPins (s : State n) (b : Fin NBUF) (k : Nat) : State n :=
  { s with pins := Function.update s.pins b k }

end State

/-! ## Steps -/

section

variable {n : Nat}

/-- The next state, or `none` if the step is not possible.  Only the holder of a
buffer modifies and unpins it, and only what was pinned is unpinned. -/
def act (s : State n) : Act n → Option (State n)
  | .bread p dev blockno =>
      if s.pc p = .idle then
        (s.bget dev blockno).map fun
          | .cached b => (s.ref b).goto p (.acquire b)
          | .recycle b => (s.recycle b dev blockno).goto p (.acquire b)
          | .noBuffers => { s with panic := some "bget: no buffers" }
      else none
  | .acquire p =>
      match s.pc p with
      | .acquire b =>
          if s.lock b = none then
            some ((s.setLock b (some p)).goto p (if (s.buf b).valid then .idle else .load b))
          else none
      | _ => none
  | .load p =>
      match s.pc p with
      | .load b =>
          some ((s.setBuf b { s.buf b with
            valid := true, data := s.disk (s.buf b).blockno }).goto p .idle)
      | _ => none
  | .modify p b data =>
      if s.pc p = .idle ∧ s.lock b = some p then
        some (s.setBuf b { s.buf b with data := data })
      else none
  | .bwrite p b =>
      if s.pc p = .idle then
        if s.lock b = some p then
          some { s with disk := Function.update s.disk (s.buf b).blockno (s.buf b).data }
        else some { s with panic := some "bwrite" }
      else none
  | .brelse p b =>
      if s.pc p = .idle then
        if s.lock b = some p then some ((s.setLock b none).goto p (.release b))
        else some { s with panic := some "brelse" }
      else none
  | .release p =>
      match s.pc p with
      | .release b =>
          let s' := ((s.unref b).goto p .idle).stamp b
          some (if (s'.buf b).refcnt = 0 then s'.toFront b else s')
      | _ => none
  | .bpin p b => if s.pc p = .idle then some ((s.ref b).setPins b (s.pins b + 1)) else none
  | .bunpin p b =>
      if s.pc p = .idle ∧ s.lock b = some p ∧ 0 < s.pins b then
        some ((s.unref b).setPins b (s.pins b - 1))
      else none

/-- After a panic no step is possible. -/
def step (s : State n) (a : Act n) : Option (State n) :=
  if s.panic = none then act s a else none

end

/-- After `binit`.  The buffers are zero, as all static data. -/
def init (n : Nat) (disk : Disk) : State n where
  buf _ := ⟨false, 0, 0, 0, fun _ => 0⟩
  lock _ := none
  links := binit
  disk := disk
  pc _ := .idle
  panic := none
  pins _ := 0
  clock := NBUF
  released b := b

/-! ## What a step does -/

/-- The steps, one by one. -/
inductive Step {n : Nat} (s : State n) : Act n → State n → Prop
  | cached {p dev blockno b} : s.pc p = .idle → s.bget dev blockno = some (.cached b) →
      Step s (.bread p dev blockno) ((s.ref b).goto p (.acquire b))
  | recycle {p dev blockno b} : s.pc p = .idle → s.bget dev blockno = some (.recycle b) →
      Step s (.bread p dev blockno) ((s.recycle b dev blockno).goto p (.acquire b))
  | panic {a m} : Step s a { s with panic := some m }
  | acquire {p b} : s.pc p = .acquire b → s.lock b = none → Step s (.acquire p)
      ((s.setLock b (some p)).goto p (if (s.buf b).valid then .idle else .load b))
  | load {p b} : s.pc p = .load b → Step s (.load p)
      ((s.setBuf b { s.buf b with valid := true, data := s.disk (s.buf b).blockno }).goto p .idle)
  | modify {p b data} : s.lock b = some p →
      Step s (.modify p b data) (s.setBuf b { s.buf b with data := data })
  | bwrite {p b} : s.lock b = some p → Step s (.bwrite p b)
      { s with disk := Function.update s.disk (s.buf b).blockno (s.buf b).data }
  | brelse {p b} : s.pc p = .idle → s.lock b = some p →
      Step s (.brelse p b) ((s.setLock b none).goto p (.release b))
  | release {p b} : s.pc p = .release b → (s.buf b).refcnt - 1 ≠ 0 →
      Step s (.release p) (((s.unref b).goto p .idle).stamp b)
  | toFront {p b} : s.pc p = .release b → (s.buf b).refcnt - 1 = 0 →
      Step s (.release p) ((((s.unref b).goto p .idle).stamp b).toFront b)
  | bpin {p b} : Step s (.bpin p b) ((s.ref b).setPins b (s.pins b + 1))
  | bunpin {p b} : s.lock b = some p → 0 < s.pins b →
      Step s (.bunpin p b) ((s.unref b).setPins b (s.pins b - 1))

theorem step_cases {n : Nat} {s s' : State n} {a : Act n} (h : step s a = some s') :
    Step s a s' := by
  unfold step at h
  split_ifs at h
  cases a with
  | bread p dev blockno =>
      simp only [act] at h
      split_ifs at h with hpc
      obtain ⟨got, hg, rfl⟩ := Option.map_eq_some_iff.1 h
      cases got with
      | cached b => exact .cached hpc hg
      | recycle b => exact .recycle hpc hg
      | noBuffers => exact .panic
  | acquire p =>
      simp only [act] at h
      split at h
      · rename_i b hpc
        by_cases hl : s.lock b = none
        · rw [if_pos hl] at h
          cases h
          exact .acquire hpc hl
        · rw [if_neg hl] at h
          cases h
      · cases h
  | load p =>
      simp only [act] at h
      split at h
      · cases h
        exact .load ‹_›
      · cases h
  | modify p b data =>
      simp only [act] at h
      split_ifs at h with hl
      cases h
      exact .modify hl.2
  | bwrite p b =>
      simp only [act] at h
      split_ifs at h with hpc hl
      · cases h
        exact .bwrite hl
      · cases h
        exact .panic
  | brelse p b =>
      simp only [act] at h
      split_ifs at h with hpc hl
      · cases h
        exact .brelse hpc hl
      · cases h
        exact .panic
  | release p =>
      simp only [act] at h
      split at h
      · cases h
        have hr : ∀ b, ((((s.unref b).goto p .idle).stamp b).buf b).refcnt =
            (s.buf b).refcnt - 1 := fun b => by
          simp [State.stamp, State.goto, State.unref, State.setBuf]
        rw [hr]
        split_ifs with h0
        · exact .toFront ‹_› h0
        · exact .release ‹_› h0
      · cases h
  | bpin p b =>
      simp only [act] at h
      split_ifs at h
      cases h
      exact .bpin
  | bunpin p b =>
      simp only [act] at h
      split_ifs at h with hl
      cases h
      exact .bunpin hl.2.1 hl.2.2

end Xv6.Bio
