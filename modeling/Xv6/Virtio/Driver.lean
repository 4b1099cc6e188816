import Xv6.Lib.Run
import Xv6.Param

/-!
# The disk driver

`kernel/virtio_disk.c` with any number of processes in `virtio_disk_rw`, the interrupt
handler, and the device.  The sections under `vdisk_lock` are cut where the device
looks at what the driver does or the driver at what the device did: the increment
of `avail->idx`, and each test of `used->idx`.  The device takes the heads of chains from
the avail ring and completes the requests in any order.

A process that calls `virtio_disk_rw` holds the sleep-lock of the buffer, so no buffer
is in two calls.  Arrays are functions, of which the first `NUM` values matter.

The fields from `published` on are history: no step of the driver reads them.
-/

namespace Xv6.Virtio

/-! ## `kernel/virtio.h` -/

/-- This many virtio descriptors. -/
def NUM : Nat := 8
/-- Chained with another descriptor. -/
def VRING_DESC_F_NEXT : Nat := 1
/-- Device writes (vs read). -/
def VRING_DESC_F_WRITE : Nat := 2
/-- Read the disk. -/
def VIRTIO_BLK_T_IN : Nat := 0
/-- Write the disk. -/
def VIRTIO_BLK_T_OUT : Nat := 1
/-- `uint16` arithmetic wraps here. -/
def UINT16 : Nat := 2 ^ 16

/-- What the address of a descriptor points to. -/
inductive Addr (β : Type) where
  | null
  /-- `&disk.ops[i]`. -/
  | op (i : Nat)
  /-- `b->data`. -/
  | data (b : β)
  /-- `&disk.info[i].status`. -/
  | status (i : Nat)

/-- `struct virtq_desc`. -/
structure Desc (β : Type) where
  addr : Addr β
  len : Nat
  flags : Nat
  next : Nat

/-- `struct virtq_avail` and `struct virtq_used`: the index and the numbers of heads. -/
structure Virtq where
  idx : Nat
  ring : Nat → Nat

/-- `struct virtio_blk_req`. -/
structure BlkReq where
  type : Nat
  reserved : Nat
  sector : Nat

/-- What `disk.info` has for a request. -/
structure Info (β : Type) where
  b : Option β
  status : Nat

/-- `struct disk`, without its lock. -/
structure Drv (β : Type) where
  desc : Nat → Desc β
  avail : Virtq
  used : Virtq
  free : Nat → Bool
  usedIdx : Nat
  info : Nat → Info β
  ops : Nat → BlkReq

/-! ## Descriptors -/

section

variable {β : Type}

/-- `alloc_desc`. -/
def allocDesc (d : Drv β) : Option (Nat × Drv β) :=
  ((List.range NUM).find? d.free).map fun i =>
    (i, { d with free := Function.update d.free i false })

/-- `free_desc`, without its `wakeup`. -/
def freeDesc (d : Drv β) (i : Nat) : Except String (Drv β) :=
  if NUM ≤ i then .error "free_desc 1"
  else if d.free i then .error "free_desc 2"
  else .ok { d with
    desc := Function.update d.desc i ⟨.null, 0, 0, 0⟩
    free := Function.update d.free i true }

/-- `free_chain`, for at most `k` rounds.  There are never more than `NUM`: no
descriptor is freed twice. -/
def freeChain : Nat → Drv β → Nat → Except String (Drv β)
  | 0, _, _ => .error "free_desc 2"
  | k + 1, d, i =>
      match freeDesc d i with
      | .error m => .error m
      | .ok d' =>
          if (d.desc i).flags &&& VRING_DESC_F_NEXT ≠ 0 then freeChain k d' (d.desc i).next
          else .ok d'

/-- What `alloc3_desc` comes to: the descriptors, or whether some were given back. -/
inductive Alloc where
  | got (idx : List Nat)
  | failed (freed : Bool)

/-- The loop of `alloc3_desc` with `k` descriptors to go. -/
def allocLoop : Nat → List Nat → Drv β → Except String (Alloc × Drv β)
  | 0, idx, d => .ok (.got idx, d)
  | k + 1, idx, d =>
      match allocDesc d with
      | some (i, d') => allocLoop k (idx ++ [i]) d'
      | none =>
          match idx.foldlM freeDesc d with
          | .error m => .error m
          | .ok d' => .ok (.failed (!idx.isEmpty), d')

def alloc3Desc (d : Drv β) : Except String (Alloc × Drv β) := allocLoop 3 [] d

/-- A request: the arguments of `virtio_disk_rw` and its array `idx`. -/
structure Req (β : Type) where
  b : β
  write : Bool
  i0 : Nat
  i1 : Nat
  i2 : Nat

/-- Format the three descriptors, record the buffer, and write the entry of the avail
ring. -/
def format (d : Drv β) (r : Req β) (blockno : Nat) : Drv β :=
  let type := if r.write then VIRTIO_BLK_T_OUT else VIRTIO_BLK_T_IN
  let flags := (if r.write then 0 else VRING_DESC_F_WRITE) ||| VRING_DESC_F_NEXT
  let desc := Function.update d.desc r.i0 ⟨.op r.i0, 16, VRING_DESC_F_NEXT, r.i1⟩
  let desc := Function.update desc r.i1 ⟨.data r.b, BSIZE, flags, r.i2⟩
  let desc := Function.update desc r.i2 ⟨.status r.i0, 1, VRING_DESC_F_WRITE, 0⟩
  { d with
    ops := Function.update d.ops r.i0 ⟨type, 0, blockno * (BSIZE / 512) % 2 ^ 32⟩
    desc := desc
    info := Function.update d.info r.i0 ⟨some r.b, 0xff⟩
    avail := { d.avail with ring := Function.update d.avail.ring (d.avail.idx % NUM) r.i0 } }

end

/-! ## States -/

/-- Whether a process sleeps, is ready to take the lock, or has it. -/
inductive Phase where
  | asleep
  | ready
  | locked
  deriving DecidableEq

/-- Where a process is in `virtio_disk_rw`. -/
inductive Pc (β : Type) where
  | idle
  /-- At `alloc3_desc`, or asleep there on `&disk.free[0]`. -/
  | alloc (ph : Phase) (b : β) (write : Bool)
  /-- Before `disk.avail->idx += 1`. -/
  | publish (r : Req β)
  /-- At the test of `b->disk`, or asleep there on `b`.  This is the request number `k`. -/
  | wait (ph : Phase) (r : Req β) (k : Nat)

/-- Who has `vdisk_lock`. -/
inductive Holder (n : Nat) where
  | proc (p : Fin n)
  | intr
  deriving DecidableEq

/-- The fields of `struct buf` that the driver uses. -/
structure Buf where
  disk : Bool
  blockno : Nat
  data : Block

/-- A request that was published: its number, and the head of its chain. -/
structure Job where
  serial : Nat
  head : Nat
  deriving DecidableEq

/-- The driver, its callers and the device. -/
structure State (n : Nat) (β : Type) where
  drv : Drv β
  buf : β → Buf
  lock : Option (Holder n)
  /-- The handler has found a used entry. -/
  entry : Bool
  pc : Fin n → Pc β
  /-- How far the device is in the avail ring. -/
  devIdx : Nat
  /-- The requests that the device has taken and not completed. -/
  busy : List Job
  image : Disk
  panic : Option String
  /-- The device has found a chain that is not a request. -/
  fault : Bool
  published : List Job
  /-- How many requests the device has taken. -/
  got : Nat
  completed : List Job
  /-- How many completed requests the handler has seen. -/
  seen : Nat
  /-- The requests whose call has returned. -/
  returned : List Job

/-- What happens next. -/
inductive Act (n : Nat) (β : Type) where
  | call (p : Fin n) (b : β) (write : Bool)
  | acquire (p : Fin n)
  | alloc (p : Fin n)
  | publish (p : Fin n)
  /-- `while(b->disk == 1)`, and the rest of the call if it is over. -/
  | test (p : Fin n)
  | intr
  /-- `while(disk.used_idx != disk.used->idx)`. -/
  | intrTest
  /-- The body of that loop. -/
  | intrEntry
  /-- The device takes a head from the avail ring. -/
  | take
  /-- The device performs a request and appends its id to the used ring. -/
  | complete (j : Job)

section

variable {n : Nat} {β : Type}

/-- The buffer of a call. -/
def Pc.buf : Pc β → Option β
  | .idle => none
  | .alloc _ b _ => some b
  | .publish r => some r.b
  | .wait _ r _ => some r.b

/-- `wakeup(&disk.free[0])`. -/
def wakeFree (pc : Fin n → Pc β) (p : Fin n) : Pc β :=
  match pc p with
  | .alloc .asleep b write => .alloc .ready b write
  | x => x

variable [DecidableEq β]

/-- `wakeup(b)`. -/
def wakeBuf (b : β) (pc : Fin n → Pc β) (p : Fin n) : Pc β :=
  match pc p with
  | .wait .asleep r k => if r.b = b then .wait .ready r k else .wait .asleep r k
  | x => x

namespace State

def goto (s : State n β) (p : Fin n) (x : Pc β) : State n β :=
  { s with pc := Function.update s.pc p x }

def setDisk (s : State n β) (b : β) (v : Bool) : State n β :=
  { s with buf := Function.update s.buf b { s.buf b with disk := v } }

/-- The transfer that a chain asks for, and the status `0`. -/
def perform (s : State n β) (head : Nat) : Option (State n β) :=
  let d0 := s.drv.desc head
  let d1 := s.drv.desc d0.next
  let d2 := s.drv.desc d1.next
  match d0.addr, d1.addr, d2.addr with
  | .op i, .data b, .status m =>
      let op := s.drv.ops i
      let blockno := op.sector / (BSIZE / 512)
      let s := { s with drv := { s.drv with
        info := Function.update s.drv.info m { s.drv.info m with status := 0 } } }
      if op.type = VIRTIO_BLK_T_OUT then
        some { s with image := Function.update s.image blockno (s.buf b).data }
      else
        some { s with buf := Function.update s.buf b { s.buf b with data := s.image blockno } }
  | _, _, _ => none

/-- Append an id to the used ring. -/
def pushUsed (s : State n β) (id : Nat) : State n β :=
  { s with drv := { s.drv with used :=
    ⟨(s.drv.used.idx + 1) % UINT16, Function.update s.drv.used.ring (s.drv.used.idx % NUM) id⟩ } }

end State

/-! ## Steps -/

/-- The next state, or `none` if the step is not possible. -/
def act (s : State n β) : Act n β → Option (State n β)
  | .call p b write =>
      match s.pc p with
      | .idle =>
          if ∀ q, (s.pc q).buf ≠ some b then some (s.goto p (.alloc .ready b write)) else none
      | _ => none
  | .acquire p =>
      if s.lock = none then
        match s.pc p with
        | .alloc .ready b write =>
            some { s.goto p (.alloc .locked b write) with lock := some (.proc p) }
        | .wait .ready r k => some { s.goto p (.wait .locked r k) with lock := some (.proc p) }
        | _ => none
      else none
  | .alloc p =>
      match s.pc p with
      | .alloc .locked b write =>
          match alloc3Desc s.drv with
          | .error m => some { s with panic := some m }
          | .ok (.got [i0, i1, i2], d) =>
              let r : Req β := ⟨b, write, i0, i1, i2⟩
              let s' := { s with drv := format d r (s.buf b).blockno }
              some ((s'.setDisk b true).goto p (.publish r))
          | .ok (.failed freed, d) =>
              let pc := if freed then wakeFree s.pc else s.pc
              some { s with
                drv := d
                pc := Function.update pc p (.alloc .asleep b write)
                lock := none }
          | _ => none
      | _ => none
  | .publish p =>
      match s.pc p with
      | .publish r =>
          some { s.goto p (.wait .locked r s.published.length) with
            drv := { s.drv with avail := { s.drv.avail with idx := (s.drv.avail.idx + 1) % UINT16 } }
            published := s.published ++ [⟨s.published.length, r.i0⟩] }
      | _ => none
  | .test p =>
      match s.pc p with
      | .wait .locked r k =>
          if (s.buf r.b).disk then
            some { s.goto p (.wait .asleep r k) with lock := none }
          else
            let info := Function.update s.drv.info r.i0 { s.drv.info r.i0 with b := none }
            match freeChain (NUM + 1) { s.drv with info := info } r.i0 with
            | .error m => some { s with panic := some m }
            | .ok d => some { s with
                drv := d
                pc := Function.update (wakeFree s.pc) p .idle
                lock := none
                returned := s.returned ++ [⟨k, r.i0⟩] }
      | _ => none
  | .intr => if s.lock = none then some { s with lock := some .intr, entry := false } else none
  | .intrTest =>
      if s.lock = some .intr ∧ s.entry = false then
        if s.drv.usedIdx ≠ s.drv.used.idx then some { s with entry := true }
        else some { s with lock := none }
      else none
  | .intrEntry =>
      if s.lock = some .intr ∧ s.entry = true then
        let id := s.drv.used.ring (s.drv.usedIdx % NUM)
        if (s.drv.info id).status ≠ 0 then
          some { s with panic := some "virtio_disk_intr status" }
        else
          match (s.drv.info id).b with
          -- a null pointer is followed
          | none => some { s with panic := some "kerneltrap" }
          | some b => some { s.setDisk b false with
              pc := wakeBuf b s.pc
              drv := { s.drv with usedIdx := (s.drv.usedIdx + 1) % UINT16 }
              entry := false
              seen := s.seen + 1 }
      else none
  | .take =>
      if s.devIdx ≠ s.drv.avail.idx then
        some { s with
          devIdx := (s.devIdx + 1) % UINT16
          busy := s.busy ++ [⟨s.got, s.drv.avail.ring (s.devIdx % NUM)⟩]
          got := s.got + 1 }
      else none
  | .complete j =>
      if j ∈ s.busy then
        match s.perform j.head with
        | none => some { s with fault := true }
        | some s' => some { s'.pushUsed j.head with
            busy := s.busy.erase j
            completed := s.completed ++ [j] }
      else none

/-- After a panic no step is possible. -/
def step (s : State n β) (a : Act n β) : Option (State n β) :=
  if s.panic = none then act s a else none

/-- After `virtio_disk_init`. -/
def init (n : Nat) (buf : β → Buf) (image : Disk) : State n β where
  drv :=
    { desc := fun _ => ⟨.null, 0, 0, 0⟩
      avail := ⟨0, fun _ => 0⟩
      used := ⟨0, fun _ => 0⟩
      free := fun _ => true
      usedIdx := 0
      info := fun _ => ⟨none, 0⟩
      ops := fun _ => ⟨0, 0, 0⟩ }
  buf := buf
  lock := none
  entry := false
  pc _ := .idle
  devIdx := 0
  busy := []
  image := image
  panic := none
  fault := false
  published := []
  got := 0
  completed := []
  seen := 0
  returned := []

end

end Xv6.Virtio
