import Xv6.Bio.Structure

/-!
# The cache is an array of blocks

A user of the cache sees an array of blocks.  `bread` of a block gives what the array has there,
a store to a locked buffer is a store to the array, and nothing else changes it: neither the
transfers to and from the disk nor the recycling of buffers.  For this a buffer that was modified
has to be pinned, or written to the disk, before `brelse`.  `log_write` pins it, and `write_log`,
`write_head` and `install_trans` write it.
-/

namespace Xv6.Bio

open RefCount

variable {n : Nat} {s s' : State n} {b : Fin NBUF} {p : Fin n} {d : Disk} {a : Act n}

/-! ## The array -/

/-- What a step stores in the array. -/
def State.store (s : State n) (d : Disk) : Act n → Disk
  | .modify _ b data => Function.update d (s.buf b).blockno data
  | _ => d

/-- The array after a run. -/
def replay : State n → Disk → List (Act n) → Disk
  | _, d, [] => d
  | s, d, a :: as => (step s a).elim d fun s' => replay s' (s.store d a) as

/-- Blocks are of the root device, and a buffer is not released before what is in it is on the
disk or the buffer is pinned. -/
def Keeps (s : State n) : Act n → Prop
  | .bread _ dev _ => dev = ROOTDEV
  | .brelse _ b => 0 < s.pins b ∨ (s.buf b).data = s.disk (s.buf b).blockno
  | _ => True

instance (s : State n) : DecidablePred (Keeps s)
  | .bread _ dev _ => inferInstanceAs (Decidable (dev = ROOTDEV))
  | .brelse _ b =>
      inferInstanceAs (Decidable (0 < s.pins b ∨ (s.buf b).data = s.disk (s.buf b).blockno))
  | .acquire _ | .load _ | .modify _ _ _ | .bwrite _ _ | .release _ | .bpin _ _ | .bunpin _ _ =>
      isTrue trivial

/-! ## The invariant -/

/-- A buffer, by the state of its lock. -/
structure BufOk (s : State n) (b : Fin NBUF) : Prop where
  root : ∀ p, s.pc p = .acquire b → (s.buf b).dev = ROOTDEV
  /-- The holder is reading the block, or has it. -/
  held : ∀ p, s.lock b = some p →
    (s.buf b).dev = ROOTDEV ∧ ((s.buf b).valid = false ↔ s.pc p = .load b)
  load : ∀ p, s.pc p = .load b → s.lock b = some p
  /-- A buffer that may be recycled is clean. -/
  free : s.lock b = none → (s.buf b).valid = true →
    (s.buf b).dev = ROOTDEV ∧ (s.pins b = 0 → (s.buf b).data = s.disk (s.buf b).blockno)

/-- The cache shows the array `d`. -/
structure Shows (s : State n) (d : Disk) : Prop where
  inv : Inv s
  bufs : ∀ b, BufOk s b
  data : ∀ b, (s.buf b).valid = true → (s.buf b).data = d (s.buf b).blockno
  disk : ∀ x, (∀ b, (s.buf b).valid = true → (s.buf b).blockno ≠ x) → s.disk x = d x

theorem BufOk.dev (h : BufOk s b) (hv : (s.buf b).valid = true) : (s.buf b).dev = ROOTDEV := by
  cases hl : s.lock b with
  | none => exact (h.free hl hv).1
  | some p => exact (h.held p hl).1

theorem Shows.init (n : Nat) (disk : Disk) : Shows (init n disk) disk where
  inv := .init n disk
  bufs _ := ⟨fun _ h => (by cases h), fun _ h => (by cases h), fun _ h => (by cases h),
    fun _ h => (by cases h)⟩
  data _ h := by cases h
  disk _ _ := rfl

/-- An unused buffer is free. -/
theorem Inv.unused (h : Inv s) (h0 : (s.buf b).refcnt = 0) :
    s.pins b = 0 ∧ s.lock b = none ∧ ∀ p, s.pc p ≠ .acquire b := by
  have hc := h.counted b
  rw [h0] at hc
  refine ⟨by omega, ?_, fun p hp => ?_⟩
  · cases hl : s.lock b with
    | none => rfl
    | some p =>
        rw [State.holder, hl, Option.elim] at hc
        omega
  · have hu : s.users b = 0 := by omega
    exact refs_eq_zero.1 hu p (by rw [hp]; rfl)

theorem Inv.bget_cached (h : Inv s) {dev blockno : Nat}
    (hg : s.bget dev blockno = some (.cached b)) : (s.buf b).dev = dev := by
  obtain ⟨l, hl, -, -⟩ := h.list
  rw [bget_eq hl] at hg
  split at hg
  · rename_i hf
    cases hg
    have hb := List.find?_some hf
    exact (of_decide_eq_true hb).1
  · split at hg <;> cases hg

/-- Only a process between calls stores to a buffer. -/
theorem step_modify {data : Block} (hs : step s (.modify p b data) = some s') :
    s.pc p = .idle ∧ s'.panic = none := by
  simp only [step, act] at hs
  split_ifs at hs with h0 h1
  cases hs
  exact ⟨h1.1, h0⟩

theorem step_bwrite (hs : step s (.bwrite p b) = some s') : s.pc p = .idle := by
  simp only [step, act] at hs
  split_ifs at hs with h0 h1 <;> exact h1

theorem Shows.bufs_step (h : Shows s d) (hk : Keeps s a) (hs : Step s a s') (b : Fin NBUF) :
    BufOk s' b := by
  obtain ⟨hroot, hheld, hload, hfree⟩ := h.bufs b
  cases hs with
  | panic => exact ⟨hroot, hheld, hload, hfree⟩
  | cached hpc hg =>
      -- one more process waits for a buffer of the root device
      have hdev := (h.inv.bget_cached hg).trans hk
      constructor <;> simp only [State.goto, State.ref, State.setBuf, Function.update_apply] <;>
        grind -ring -linarith
  | @recycle p dev blockno c hpc hg =>
      -- nobody has the buffer, so nobody reads it; it is not valid now
      obtain ⟨-, hl, -⟩ := h.inv.unused (h.inv.bget_recycle hg).2.1
      have hno : ∀ q, s.pc q ≠ .load c := fun q hq => by cases hl.symm.trans ((h.bufs c).load q hq)
      have hdev : dev = ROOTDEV := hk
      constructor <;> simp only [State.goto, State.recycle, State.setBuf, Function.update_apply] <;>
        grind -ring -linarith
  | @acquire p c hpc hl =>
      -- the new holder has waited for the buffer, and is the only one to read it
      have hdev := (h.bufs c).root p hpc
      have hno : ∀ q, s.pc q ≠ .load c := fun q hq => by cases hl.symm.trans ((h.bufs c).load q hq)
      constructor <;> simp only [State.goto, State.setLock, Function.update_apply] <;>
        grind -ring -linarith
  | @load p c hpc =>
      -- only the holder reads the buffer, and it is done
      have hl := (h.bufs c).load p hpc
      constructor <;> simp only [State.goto, State.setBuf, Function.update_apply] <;>
        grind -ring -linarith
  | @modify p c data hl =>
      -- the buffer is not free, so it need not be clean
      constructor <;> simp only [State.setBuf, Function.update_apply] <;> grind -ring -linarith
  | @bwrite p c hl =>
      -- a free buffer is not of the block that is written
      have hne : s.lock b = none → (s.buf b).valid = true →
          (s.buf b).blockno ≠ (s.buf c).blockno := by
        intro hn hv he
        have hdev := ((h.bufs c).held p hl).1
        have hbc := h.inv.one c b (by rw [hdev]; decide) ((hfree hn hv).1.trans hdev.symm) he
        rw [hbc, hl] at hn
        cases hn
      exact ⟨hroot, hheld, hload, fun hn hv => ⟨(hfree hn hv).1, fun hp =>
        ((hfree hn hv).2 hp).trans (Function.update_of_ne (hne hn hv) _ _).symm⟩⟩
  | @brelse p c hpc hl =>
      -- the buffer is pinned or clean, and the process that had it was not reading it
      have hdev := ((h.bufs c).held p hl).1
      simp only [Keeps] at hk
      constructor <;> simp only [State.goto, State.setLock, Function.update_apply] <;>
        grind -ring -linarith
  | release hpc =>
      constructor <;> simp only [State.stamp, State.goto, State.unref, State.setBuf,
        Function.update_apply] <;> grind -ring -linarith
  | toFront hpc =>
      constructor <;> simp only [State.toFront, State.stamp, State.goto, State.unref,
        State.setBuf, Function.update_apply] <;> grind -ring -linarith
  | bpin =>
      constructor <;> simp only [State.setPins, State.ref, State.setBuf, Function.update_apply] <;>
        grind -ring -linarith
  | bunpin hl _ =>
      -- the buffer is not free
      constructor <;> simp only [State.setPins, State.unref, State.setBuf,
        Function.update_apply] <;> grind -ring -linarith

/-- What the users see of a buffer. -/
def Buf.view (v : Buf) : Bool × Nat × Block := (v.valid, v.blockno, v.data)

theorem Shows.step (h : Shows s d) (hk : Keeps s a) (hs : step s a = some s') :
    Shows s' (s.store d a) := by
  have hinv := h.inv.step (step_cases hs)
  have hbufs := h.bufs_step hk (step_cases hs)
  have hquiet : (∀ b, (s'.buf b).view = (s.buf b).view) → s'.disk = s.disk → Shows s' d := by
    intro hv hd
    simp only [Buf.view, Prod.mk.injEq] at hv
    refine ⟨hinv, hbufs, fun b hb => ?_, fun x hx => ?_⟩
    · rw [(hv b).1] at hb
      rw [(hv b).2.1, (hv b).2.2, h.data b hb]
    · rw [hd]
      exact h.disk x fun b hb => by rw [← (hv b).2.1]; exact hx b (by rw [(hv b).1, hb])
  have hdata := h.data
  have hdisk := h.disk
  have hdev := fun b => (h.bufs b).dev
  have hone := h.inv.one
  cases step_cases hs with
  | panic =>
      cases a with
      | modify p b data => cases (step_modify hs).2
      | _ => exact hquiet (fun _ => rfl) rfl
  | acquire => exact hquiet (fun _ => rfl) rfl
  | brelse => exact hquiet (fun _ => rfl) rfl
  | cached => exact hquiet (update_field Buf.view rfl rfl) rfl
  | release => exact hquiet (update_field Buf.view rfl rfl) rfl
  | toFront => exact hquiet (update_field Buf.view rfl rfl) rfl
  | bpin => exact hquiet (update_field Buf.view rfl rfl) rfl
  | bunpin => exact hquiet (update_field Buf.view rfl rfl) rfl
  | @recycle p dev blockno b hpc hg =>
      obtain ⟨h1, h2, -⟩ := h.inv.unused (h.inv.bget_recycle hg).2.1
      have hclean := fun hv => ((h.bufs b).free h2 hv).2 h1
      refine ⟨hinv, hbufs, ?_, ?_⟩ <;>
        simp only [State.store, State.goto, State.setBuf, State.recycle, Function.update_apply] <;>
        grind -ring -linarith
  | @load p b hpc =>
      have hv := (h.bufs b).held p ((h.bufs b).load p hpc)
      refine ⟨hinv, hbufs, ?_, ?_⟩ <;>
        simp only [State.store, State.goto, State.setBuf, Function.update_apply] <;>
        grind -ring -linarith [OneBuffer, ROOTDEV]
  | @modify p b data hl =>
      have hv := (h.bufs b).held p hl
      have hpc := (step_modify hs).1
      refine ⟨hinv, hbufs, ?_, ?_⟩ <;>
        simp only [State.store, State.setBuf, Function.update_apply] <;>
        grind -ring -linarith [OneBuffer, ROOTDEV]
  | @bwrite p b hl =>
      have hv := (h.bufs b).held p hl
      have hpc := step_bwrite hs
      refine ⟨hinv, hbufs, ?_, ?_⟩ <;>
        simp only [State.store, Function.update_apply] <;> grind -ring -linarith

/-! ## Runs -/

theorem Shows.run {as : List (Act n)} (h : Shows s d) (hm : Run.Meets Bio.step Keeps s as)
    (hr : Run.exec Bio.step s as = some s') : Shows s' (replay s d as) := by
  induction as generalizing s d with
  | nil =>
      cases hr
      exact h
  | cons a as ih =>
      rw [Run.exec_cons, Option.bind_eq_some_iff] at hr
      obtain ⟨s₁, h1, h2⟩ := hr
      rw [replay, h1]
      exact ih (h.step hm.1 h1) (hm.2 s₁ h1) h2

/-- The cache in every run that keeps the rule.  A process that has got a buffer from `bread` has
the block there as the stores of the run have left it, and the blocks that are not in the cache
are so on the disk. -/
theorem cache_refines {disk : Disk} {as : List (Act n)}
    (hm : Run.Meets step Keeps (init n disk) as)
    (hr : Run.exec step (init n disk) as = some s) :
    (∀ b p, s.lock b = some p → s.pc p = .idle →
      (s.buf b).data = replay (init n disk) disk as (s.buf b).blockno) ∧
    ∀ x, (∀ b, (s.buf b).valid = true → (s.buf b).blockno ≠ x) →
      s.disk x = replay (init n disk) disk as x := by
  have h := (Shows.init n disk).run hm hr
  refine ⟨fun b p hl hp => h.data b ?_, h.disk⟩
  have hv := ((h.bufs b).held p hl).2
  rw [hp] at hv
  simpa using hv

/-- A process stores to a block, pins its buffer and releases it, and another one reads the block. -/
def storePinned : List (Act 2) :=
  [.bread 0 ROOTDEV 5, .acquire 0, .load 0, .modify 0 0 fun _ => 7, .bpin 0 0, .brelse 0 0,
    .release 0, .bread 1 ROOTDEV 5, .acquire 1]

/-- The second process finds what the first has stored, which is not on the disk. -/
theorem cache_refines_pinned : ∃ s, Run.exec step (init 2 fun _ _ => 0) storePinned = some s ∧
    s.lock 0 = some 1 ∧ (s.buf 0).data = (fun _ => 7) ∧ s.disk 5 = fun _ => 0 := by
  obtain ⟨s, hr, hl, hp, hb, hd⟩ : ∃ s, Run.exec step (init 2 fun _ _ => 0) storePinned = some s ∧
      s.lock 0 = some 1 ∧ s.pc 1 = .idle ∧ (s.buf 0).blockno = 5 ∧ s.disk 5 = fun _ => 0 :=
    Run.exists_exec_of_check (by decide +kernel)
  have hm : Run.Meets step Keeps (init 2 fun _ _ => 0) storePinned := by decide +kernel
  have hdata := (cache_refines hm hr).1 0 1 hl hp
  refine ⟨s, hr, hl, ?_, hd⟩
  rw [hdata, hb]
  decide +kernel

end Xv6.Bio
