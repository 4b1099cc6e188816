import Xv6.Pipe.Fifo

/-!
# Who sleeps at a pipe

A writer sleeps only while the pipe is full and can be read, and a reader only while it is empty
and can be written to, so they do not wait for each other.  For readers there is an exception.  A
writer whose process is killed after it has stored some bytes returns without a `wakeup`, and the
readers sleep beside these bytes.
-/

namespace Xv6.Pipe

variable {ι : Type} [DecidableEq ι] {call : ι → Call} {s s' : State ι} {pi : Pipe} {i k : Nat}
  {src : Nat → Option UInt8} {killed : Nat → Bool} {c : ι}

/-- No writer returns -1 after it has stored bytes since it last had the lock. -/
def Whole (call : ι → Call) (s : State ι) : Act ι → Prop
  | .run c killed =>
      match s.pc c, call c with
      | .ready i, .write n src =>
          (pipewrite src killed (n - i).toNat s.pipe i).ends = .ret (-1) →
            (pipewrite src killed (n - i).toNat s.pipe i).bytes = []
      | _, _ => True
  | _ => True

/-- There is nothing to read, and it may come. -/
def Empty (pi : Pipe) : Prop := pi.nread = pi.nwrite ∧ pi.writeopen = true

/-- There is no room, and it may come. -/
def Full (pi : Pipe) : Prop := pi.nwrite = (pi.nread + PIPESIZE) % UINT ∧ pi.readopen = true

/-! ## The two functions -/

theorem pipewrite_nil (h : (pipewrite src killed k pi i).bytes = []) :
    (pipewrite src killed k pi i).pipe = pi := by
  cases k with
  | zero => rfl
  | succ k =>
      unfold pipewrite at h ⊢
      split_ifs at h ⊢ with h1 h2
      · rfl
      · rfl
      · cases hs : src i with
        | none => rfl
        | some ch =>
            rw [hs] at h
            cases h

theorem pipewrite_full (h : Full pi) : (pipewrite src killed k pi i).pipe = pi := by
  cases k with
  | zero => rfl
  | succ k =>
      unfold pipewrite
      split_ifs with h1 h2
      · rfl
      · rfl
      · exact absurd h.1 h2

theorem pipewrite_sleep (h : (pipewrite src killed k pi i).ends = .sleep) :
    Full (pipewrite src killed k pi i).pipe := by
  induction k generalizing pi i with
  | zero => cases h
  | succ k ih =>
      unfold pipewrite at h ⊢
      split_ifs at h ⊢ with h1 h2
      · exact ⟨h2, by simpa using fun hr => h1 (.inl hr)⟩
      · cases hs : src i with
        | none =>
            rw [hs] at h
            cases h
        | some ch =>
            rw [hs] at h
            exact ih h

/-- A reader leaves the pipe alone if it sleeps, is killed, or finds the pipe empty. -/
theorem piperead_keeps (dst : Nat → Bool) (killed : Bool) (n : Int) (pi : Pipe) :
    ((piperead dst killed n pi).ends = .sleep → Empty pi) ∧
    (Empty pi ∨ (piperead dst killed n pi).ends = .sleep ∨
      (piperead dst killed n pi).ends = .ret (-1) → (piperead dst killed n pi).pipe = pi) := by
  obtain ⟨j, -, hj⟩ := pipereadCopy_ends dst n.toNat pi 0
  unfold piperead
  split_ifs with h1 h2
  · exact ⟨fun _ => h1, fun _ => rfl⟩
  · exact ⟨fun _ => h1, fun _ => rfl⟩
  · rw [hj]
    refine ⟨fun h => (by cases h), ?_⟩
    rintro (h | h | h)
    · exact absurd h h1
    · cases h
    · cases h

/-! ## The sleepers -/

structure Waits (call : ι → Call) (s : State ι) : Prop where
  readers : ∀ c n dst i, call c = .read n dst → s.pc c = .asleep i → Empty s.pipe
  writers : ∀ c n src i, call c = .write n src → s.pc c = .asleep i → Full s.pipe

omit [DecidableEq ι] in
theorem asleep_wakeReaders {pc : ι → Pc} (h : wakeReaders call pc c = .asleep i) :
    pc c = .asleep i ∧ ∀ n dst, call c ≠ .read n dst := by
  unfold wakeReaders at h
  split at h
  · cases h
  · rename_i hno
    exact ⟨h, fun n dst hc => hno n dst i hc h⟩

omit [DecidableEq ι] in
theorem asleep_wakeWriters {pc : ι → Pc} (h : wakeWriters call pc c = .asleep i) :
    pc c = .asleep i ∧ ∀ n src, call c ≠ .write n src := by
  unfold wakeWriters at h
  split at h
  · cases h
  · rename_i hno
    exact ⟨h, fun n src hc => hno n src i hc h⟩

theorem Ends.pc_asleep {e : Ends} {j : Nat} (h : e.pc i = .asleep j) : e = .sleep := by
  cases e with
  | ret r => cases h
  | sleep => rfl

/-- A stretch of a writer.  It wakes the readers, or it has stored nothing. -/
theorem Waits.write {n : Int} {w : Wrote} {stored : List (ι × UInt8)} (h : Waits call s)
    (hc : call c = .write n src) (hsleep : w.ends = .sleep → Full w.pipe)
    (hfull : Full s.pipe → w.pipe = s.pipe) (hret : w.ends = .ret (-1) → w.pipe = s.pipe) :
    Waits call ⟨w.pipe, Function.update (if w.ends.wakes then wakeReaders call s.pc else s.pc) c
      (w.ends.pc w.i), stored, s.taken⟩ where
  readers d m dst j hd hj := by
    have hdc : d ≠ c := by
      rintro rfl
      cases hc.symm.trans hd
    have hj := (Function.update_of_ne hdc _ _).symm.trans hj
    by_cases hw : w.ends = .ret (-1)
    · rw [if_neg (by simpa [Ends.wakes] using hw)] at hj
      rw [hret hw]
      exact h.readers d m dst j hd hj
    · rw [if_pos (by simpa [Ends.wakes] using hw)] at hj
      exact absurd hd ((asleep_wakeReaders hj).2 m dst)
  writers d m x j hd hj := by
    by_cases hdc : d = c
    · subst hdc
      exact hsleep (Ends.pc_asleep ((Function.update_self ..).symm.trans hj))
    · have hj := (Function.update_of_ne hdc _ _).symm.trans hj
      have hold : s.pc d = .asleep j := by
        split at hj
        · exact (asleep_wakeReaders hj).1
        · exact hj
      have hf := h.writers d m x j hd hold
      rw [hfull hf]
      exact hf

/-- A stretch of a reader.  It wakes the writers, or it has taken nothing. -/
theorem Waits.read {n : Int} {dst : Nat → Bool} {r : Read} {taken : List UInt8} (h : Waits call s)
    (hc : call c = .read n dst) (hsleep : r.ends = .sleep → Empty s.pipe)
    (hkeep : Empty s.pipe ∨ r.ends = .sleep ∨ r.ends = .ret (-1) → r.pipe = s.pipe) :
    Waits call ⟨r.pipe, Function.update (if r.ends.wakes ∧ r.ends ≠ .sleep then
      wakeWriters call s.pc else s.pc) c (r.ends.pc i), s.stored, taken⟩ where
  readers d m x j hd hj := by
    have hempty : Empty s.pipe := by
      by_cases hdc : d = c
      · subst hdc
        exact hsleep (Ends.pc_asleep ((Function.update_self ..).symm.trans hj))
      · have hj := (Function.update_of_ne hdc _ _).symm.trans hj
        split at hj
        · exact h.readers d m x j hd (asleep_wakeWriters hj).1
        · exact h.readers d m x j hd hj
    rw [hkeep (.inl hempty)]
    exact hempty
  writers d m x j hd hj := by
    have hdc : d ≠ c := by
      rintro rfl
      cases hc.symm.trans hd
    have hj := (Function.update_of_ne hdc _ _).symm.trans hj
    split at hj
    · exact absurd hd ((asleep_wakeWriters hj).2 m x)
    · rename_i hno
      have hsame : r.pipe = s.pipe := hkeep (.inr (by
        by_cases hs : r.ends = .sleep
        · exact .inl hs
        · exact .inr (by simpa [Ends.wakes, hs] using hno)))
      rw [hsame]
      exact h.writers d m x j hd hj

theorem Waits.step {a : Act ι} (h : Waits call s) (hw : Whole call s a)
    (hs : step call s a = some s') : Waits call s' := by
  cases a with
  | run c killed =>
      cases hpc : s.pc c with
      | asleep i => simp [Pipe.step, hpc] at hs
      | returned r => simp [Pipe.step, hpc] at hs
      | ready i =>
          cases hc : call c with
          | write n src =>
              simp only [Pipe.step, hpc, hc, Option.some.injEq] at hs
              simp only [Whole, hpc, hc] at hw
              subst hs
              exact h.write hc pipewrite_sleep pipewrite_full fun he => pipewrite_nil (hw he)
          | read n dst =>
              simp only [Pipe.step, hpc, hc, Option.some.injEq] at hs
              subst hs
              obtain ⟨hsleep, hkeep⟩ := piperead_keeps dst (killed 0) n s.pipe
              exact h.read hc hsleep hkeep
  | close w =>
      -- those who wait for the end that is closed are woken
      cases w with
      | true =>
          cases hs
          exact ⟨fun d m x j hd hj => absurd hd ((asleep_wakeReaders hj).2 m x),
            fun d m x j hd hj => h.writers d m x j hd (asleep_wakeReaders hj).1⟩
      | false =>
          cases hs
          exact ⟨fun d m x j hd hj => h.readers d m x j hd (asleep_wakeWriters hj).1,
            fun d m x j hd hj => absurd hd ((asleep_wakeWriters hj).2 m x)⟩
  | kill c =>
      simp only [Pipe.step] at hs
      split at hs
      · cases hs
        have hother : ∀ d j i, Function.update s.pc c (.ready i) d = .asleep j →
            s.pc d = .asleep j := by
          intro d j i hj
          by_cases hdc : d = c
          · rw [hdc, Function.update_self] at hj
            cases hj
          · rwa [Function.update_of_ne hdc] at hj
        exact ⟨fun d m x j hd hj => h.readers d m x j hd (hother d j _ hj),
          fun d m x j hd hj => h.writers d m x j hd (hother d j _ hj)⟩
      · cases hs
        exact h

/-- In every run in which no writer is killed after it has stored bytes: a writer sleeps only at a
full pipe that can be read, a reader only at an empty pipe that can be written to, and there are
not both. -/
theorem pipe_waits (call : ι → Call) (data : Bytes.Region PIPESIZE) {as : List (Act ι)}
    (hm : Run.Meets (Pipe.step call) (Whole call) (init ι data) as)
    (hr : Run.exec (Pipe.step call) (init ι data) as = some s) :
    (∀ c n src i, call c = .write n src → s.pc c = .asleep i →
      s.pipe.nwrite = (s.pipe.nread + PIPESIZE) % UINT ∧ s.pipe.readopen = true) ∧
    (∀ c n dst i, call c = .read n dst → s.pc c = .asleep i →
      s.pipe.nread = s.pipe.nwrite ∧ s.pipe.writeopen = true) ∧
    ∀ c c' n n' src dst i i', call c = .write n src → call c' = .read n' dst →
      s.pc c = .asleep i → s.pc c' ≠ .asleep i' := by
  have h : Waits call s := Run.exec_invariant_of_meets (fun _ _ _ h hw hs => h.step hw hs)
    ⟨fun _ _ _ _ _ h => (by cases h), fun _ _ _ _ _ h => (by cases h)⟩ hm hr
  have hq : Inv call s := Run.exec_invariant (fun _ _ _ h hs => h.step hs) (Inv.init data) hr
  refine ⟨h.writers, h.readers, fun c c' n n' src dst i i' hc hc' hi hi' => ?_⟩
  have hfull := (Ring.Holds.full_iff hq.holds pipesize_lt).1 (h.writers c n src i hc hi).1
  have hempty := (Ring.Holds.empty_iff hq.holds pipesize_lt).1 (h.readers c' n' dst i' hc' hi').1
  have hpos : 0 < PIPESIZE := by decide
  omega

/-- A writer of more bytes than the pipe has room for, and a reader. -/
def longWrite : Bool → Call
  | true => .write 600 fun _ => some 7
  | false => .read 1 fun _ => true

/-- The reader starts first. -/
def fillPipe : List (Act Bool) := [.run false fun _ => false, .run true fun _ => false]

/-- The reader sleeps at the empty pipe, and the writer wakes it before it sleeps at the full one. -/
theorem pipe_waits_longWrite : ∃ s, Run.exec (step longWrite) (init Bool fun _ => 0) fillPipe =
      some s ∧ s.pc true = .asleep 512 ∧ s.pipe.nwrite = (s.pipe.nread + PIPESIZE) % UINT ∧
    s.pipe.readopen = true ∧ s.pc false ≠ .asleep 0 := by
  obtain ⟨s, hr, hpc⟩ : ∃ s, Run.exec (step longWrite) (init Bool fun _ => 0) fillPipe = some s ∧
      s.pc true = .asleep 512 := Run.exists_exec_of_check (by decide +kernel)
  have hm : Run.Meets (step longWrite) (Whole longWrite) (init Bool fun _ => 0) fillPipe := by
    refine ⟨trivial, fun s₁ h₁ => ⟨?_, fun _ _ => trivial⟩⟩
    cases h₁
    exact fun he => absurd he (by decide +kernel)
  obtain ⟨hw, -, hno⟩ := pipe_waits longWrite (fun _ => 0) hm hr
  obtain ⟨hfull, hopen⟩ := hw true 600 _ 512 rfl hpc
  exact ⟨s, hr, hpc, hfull, hopen, hno true false 600 1 _ _ 512 0 rfl rfl hpc⟩

end Xv6.Pipe
