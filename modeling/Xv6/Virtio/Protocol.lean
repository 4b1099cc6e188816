import Xv6.Lib.Ring
import Xv6.Virtio.Chains

/-!
# The protocol between the driver and the device

The invariant of `virtio_disk_rw`, `virtio_disk_intr` and the device.  Each request that
is published is in one place: in the avail ring, with the device, or completed.
Those that the handler has not seen yet belong each to one process whose buffer has
`disk = 1`, and such a process has three of the `NUM` descriptors.  So there are at
most two of them, and the rings never fill up.
-/

namespace Xv6.Virtio

open Gather

section

variable {n : Nat} {β : Type}

/-! ## Processes -/

/-- The request that a process has descriptors for. -/
def Pc.req : Pc β → Option (Req β)
  | .publish r => some r
  | .wait _ r _ => some r
  | _ => none

/-- The request that a process has published, with its number. -/
def Pc.job : Pc β → Option (Req β × Nat)
  | .wait _ r k => some (r, k)
  | _ => none

/-- The request that a process is about to publish. -/
def Pc.staged : Pc β → Option (Req β)
  | .publish r => some r
  | _ => none

/-- The process has `vdisk_lock`. -/
def Pc.holds : Pc β → Bool
  | .alloc .locked _ _ => true
  | .publish _ => true
  | .wait .locked _ _ => true
  | _ => false

/-- The descriptors of a process. -/
def Pc.descs (x : Pc β) : List Nat := x.req.elim [] Req.descs

/-- What matters about where a process is. -/
structure Pc.Like (x y : Pc β) : Prop where
  buf : x.buf = y.buf
  req : x.req = y.req
  job : x.job = y.job
  staged : x.staged = y.staged
  holds : x.holds = y.holds

theorem Pc.Like.refl (x : Pc β) : x.Like x := ⟨rfl, rfl, rfl, rfl, rfl⟩

theorem wakeFree_like (pc : Fin n → Pc β) (p : Fin n) : (wakeFree pc p).Like (pc p) := by
  unfold wakeFree
  split
  · rename_i h
    rw [h]
    exact ⟨rfl, rfl, rfl, rfl, rfl⟩
  · exact .refl _

theorem wakeBuf_like [DecidableEq β] (b : β) (pc : Fin n → Pc β) (p : Fin n) :
    (wakeBuf b pc p).Like (pc p) := by
  unfold wakeBuf
  split
  · rename_i h
    rw [h]
    split_ifs
    · exact ⟨rfl, rfl, rfl, rfl, rfl⟩
    · exact .refl _
  · exact .refl _

/-! ## The invariant -/

variable {s : State n β} {p q : Fin n} {r r' : Req β} {k : Nat} {x : Pc β} {d : Drv β} {j : Job}

/-- The request of a process that the handler has not seen. -/
def active (buf : β → Buf) (pc : Fin n → Pc β) (p : Fin n) : List Job :=
  match (pc p).job with
  | some (r, k) => if (buf r.b).disk then [⟨k, r.i0⟩] else []
  | none => []

/-- The requests in the avail ring. -/
def State.untaken (s : State n β) : List Job := s.published.drop s.got

/-- The requests in the used ring. -/
def State.unseen (s : State n β) : List Job := s.completed.drop s.seen

structure Inv (s : State n β) : Prop where
  ok : s.panic = none ∧ s.fault = false
  bufs : ∀ p q b, (s.pc p).buf = some b → (s.pc q).buf = some b → p = q
  holder : ∀ p, (s.pc p).holds = true → s.lock = some (.proc p)
  nodup : (gather fun p => (s.pc p).descs).Nodup
  descs : ∀ i, i ∈ gather (fun p => (s.pc p).descs) ↔ i < NUM ∧ s.drv.free i = false
  chains : ∀ p r, (s.pc p).req = some r → Formatted s.drv r
  info : ∀ p r, (s.pc p).req = some r → (s.drv.info r.i0).b = some r.b
  staged : ∀ p r, (s.pc p).staged = some r →
    (s.buf r.b).disk = true ∧ s.drv.avail.ring (s.drv.avail.idx % NUM) = r.i0
  avail : Ring.Holds NUM UINT16 s.drv.avail.ring s.devIdx s.drv.avail.idx
    (s.published.map Job.head) s.got
  used : Ring.Holds NUM UINT16 s.drv.used.ring s.drv.usedIdx s.drv.used.idx
    (s.completed.map Job.head) s.seen
  serials : ∀ (i : Nat) j, s.published[i]? = some j → j.serial = i
  once : (s.untaken ++ s.busy ++ s.completed).Perm s.published
  pending : (s.untaken ++ s.busy ++ s.unseen).Perm (gather (active s.buf s.pc))
  ended : ∀ p r k, (s.pc p).job = some (r, k) → (s.buf r.b).disk = false →
    ⟨k, r.i0⟩ ∈ s.completed
  status : ∀ j ∈ s.unseen, (s.drv.info j.head).status = 0
  returned : ∀ j ∈ s.returned, j ∈ s.completed
  entry : s.lock = some .intr → s.entry = true → s.drv.usedIdx ≠ s.drv.used.idx

theorem Inv.init (n : Nat) (buf : β → Buf) (image : Disk) : Inv (init n buf image) where
  ok := ⟨rfl, rfl⟩
  bufs := fun _ _ _ h => nomatch h
  holder := fun _ h => nomatch h
  nodup := by
    have h0 : gather (fun p => ((Virtio.init n buf image).pc p).descs) = [] :=
      gather_nil fun _ => rfl
    rw [h0]
    exact List.nodup_nil
  descs := fun i => by
    have h0 : gather (fun p => ((Virtio.init n buf image).pc p).descs) = [] :=
      gather_nil fun _ => rfl
    rw [h0]
    simp [Virtio.init]
  chains := fun _ _ h => nomatch h
  info := fun _ _ h => nomatch h
  staged := fun _ _ h => nomatch h
  avail := Ring.Holds.init _
  used := Ring.Holds.init _
  serials := fun _ _ h => nomatch h
  once := List.Perm.nil
  pending := by
    have h0 : gather (active buf (Virtio.init n buf image).pc) = [] := gather_nil fun _ => rfl
    exact h0 ▸ List.Perm.nil
  ended := fun _ _ _ h => nomatch h
  status := fun _ h => nomatch h
  returned := fun _ h => nomatch h
  entry := fun h => nomatch h

/-! ## Consequences -/

theorem job_req (h : (s.pc p).job = some (r, k)) :
    (s.pc p).req = some r ∧ (s.pc p).buf = some r.b := by
  cases hpc : s.pc p with
  | wait ph r' k' =>
      rw [hpc] at h
      cases h
      exact ⟨rfl, rfl⟩
  | idle => simp [hpc, Pc.job] at h
  | alloc ph b w => simp [hpc, Pc.job] at h
  | publish r' => simp [hpc, Pc.job] at h

theorem staged_holds (h : (s.pc p).staged = some r) :
    (s.pc p).holds = true ∧ (s.pc p).req = some r := by
  cases hpc : s.pc p with
  | publish r' =>
      rw [hpc] at h
      cases h
      exact ⟨rfl, rfl⟩
  | idle => simp [hpc, Pc.staged] at h
  | alloc ph b w => simp [hpc, Pc.staged] at h
  | wait ph r' k' => simp [hpc, Pc.staged] at h

theorem descs_of_req (h : (s.pc p).req = some r) : (s.pc p).descs = r.descs := by
  rw [Pc.descs, h]
  rfl

theorem mem_active {buf : β → Buf} {pc : Fin n → Pc β} (h : j ∈ active buf pc p) :
    ∃ r, (pc p).job = some (r, j.serial) ∧ r.i0 = j.head ∧ (buf r.b).disk = true := by
  unfold active at h
  split at h
  · rename_i r k hj
    split_ifs at h with hd
    · rw [List.mem_singleton] at h
      subst h
      exact ⟨r, hj, rfl, hd⟩
    · exact absurd h (List.not_mem_nil)
  · exact absurd h (List.not_mem_nil)

/-- A request that the handler has not seen belongs to a process that waits for it. -/
theorem Inv.waiter (h : Inv s) (hj : j ∈ s.untaken ++ s.busy ++ s.unseen) :
    ∃ p r, (s.pc p).job = some (r, j.serial) ∧ r.i0 = j.head ∧ (s.buf r.b).disk = true := by
  obtain ⟨p, hp⟩ := mem_gather.1 (h.pending.mem_iff.1 hj)
  obtain ⟨r, hr⟩ := mem_active hp
  exact ⟨p, r, hr⟩

/-- A process with a request in the rings has three descriptors. -/
theorem three_descs (buf : β → Buf) (pc : Fin n → Pc β) (p : Fin n) :
    3 * (active buf pc p).length ≤ ((pc p).descs).length := by
  cases hpc : pc p with
  | wait ph r k =>
      simp only [active, hpc, Pc.job, Pc.descs, Pc.req, Option.elim, Req.descs]
      split_ifs
      · simp
      · simp
  | idle => simp [active, hpc, Pc.job]
  | alloc ph b w => simp [active, hpc, Pc.job]
  | publish r => simp [active, hpc, Pc.job]

/-- At most two requests are in the rings or with the device. -/
theorem Inv.length_le (h : Inv s) : (s.untaken ++ s.busy ++ s.unseen).length ≤ 2 := by
  have h1 := length_gather_le 3 (three_descs s.buf s.pc)
  have h2 : (gather fun p => (s.pc p).descs).length ≤ NUM := by
    have hsub : (gather fun p => (s.pc p).descs) ⊆ List.range NUM := fun i hi =>
      List.mem_range.2 ((h.descs i).1 hi).1
    simpa using (List.subperm_of_subset h.nodup hsub).length_le
  rw [h.pending.length_eq]
  have h3 : NUM = 8 := rfl
  omega

/-- There is room in the avail ring. -/
theorem Inv.avail_room (h : Inv s) : (s.published.map Job.head).length < s.got + NUM := by
  have hl := h.length_le
  have h3 : NUM = 8 := rfl
  simp only [List.length_append, State.untaken, List.length_drop] at hl
  rw [List.length_map]
  omega

/-- There is room in the used ring. -/
theorem Inv.used_room (h : Inv s) : (s.completed.map Job.head).length < s.seen + NUM := by
  have hl := h.length_le
  have h3 : NUM = 8 := rfl
  simp only [List.length_append, State.unseen, List.length_drop] at hl
  rw [List.length_map]
  omega

theorem num_lt : NUM < UINT16 := by decide

theorem num_dvd : NUM ∣ UINT16 := by decide

/-- The descriptors of different processes are different. -/
theorem Inv.disjoint (h : Inv s) (hp : (s.pc p).req = some r) (hq : (s.pc q).req = some r')
    (hne : p ≠ q) {i : Nat} (hi : i ∈ r.descs) : i ∉ r'.descs := by
  intro hi'
  rw [← descs_of_req hp] at hi
  rw [← descs_of_req hq] at hi'
  exact hne (eq_of_mem_gather (f := fun p => (s.pc p).descs) h.nodup hi hi')

end

end Xv6.Virtio
