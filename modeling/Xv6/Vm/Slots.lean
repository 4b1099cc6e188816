import Xv6.Vm.Owners

/-!
# A new process starts clean

A free slot of the process table has all its fields cleared, except that
`kill(0)` finds the first free slot, whose pid is `0`, and sets its `killed`.  The
next process to get the slot starts killed.  If no call of `kill` names `0`, free
slots are clean and a process is killed only by a `kill` of its own pid.
-/

namespace Xv6.Vm

open Hoare FreeList

variable {n : Nat} {g : Layout} {s s' : Sys n}

/-- A slot with all fields cleared. -/
structure Proc.Pristine (q : Proc n) : Prop extends q.Clean where
  killed : q.killed = false

/-- Any call but `kill(0)`. -/
def NoKillZero (_ : Sys n) (x : Fin n × Op) : Prop := x.2 ≠ .kill 0

/-- The pid of a free slot. -/
def isZero (_ : Fin n) (i : Int) : Prop := i = 0

/-- The pid of a free slot, and the pid `pid` in the slot `c`. -/
def spared (c : Fin n) (pid : Int) (p : Fin n) (i : Int) : Prop := i = 0 ∨ p = c ∧ i = pid

/-- A free slot is clean if no call killed `0`. -/
theorem Good.pristine {taken : List Nat} {p : Fin n} (h : Good g isZero taken s)
    (hu : (s.proc p).state = .unused) : (s.proc p).Pristine := by
  obtain ⟨pipes, h⟩ := h
  have hc := (h.procs p).clean hu
  exact ⟨hc, (h.procs p).calm hc.pid⟩

/-- A process that is not killed is spared. -/
theorem Good.spare {taken : List Nat} {c : Fin n} {pid : Int} (h : Good g isZero taken s)
    (hc : (s.proc c).killed = false) : Good g (spared c pid) taken s := by
  obtain ⟨pipes, h⟩ := h
  refine ⟨pipes, h.owned, h.complete, fun p => ?_, h.files⟩
  have hok := h.procs p
  refine ⟨hok.clean, hok.ended, hok.live, hok.space, ?_⟩
  rintro (h0 | ⟨rfl, -⟩)
  · exact hok.calm h0
  · exact hc

/-- In a run without `kill(0)`, free slots are clean, and the child of a `fork` is
not killed unless a later `kill` names its pid. -/
theorem clean_slots (n : Nat) (g : Layout) (mem : Nat → Page) :
    ∃ taken s₀, boot g (zeroed (n + 1) mem) = .ok (taken, s₀) ∧
      ∀ xs s, Run.Meets (step g) NoKillZero s₀ xs → Run.exec (step g) s₀ xs = some s →
        (∀ p, (s.proc p).state = .unused → (s.proc p).Pristine) ∧
        ∀ (p c : Fin (n + 1)) (s₁ : Sys (n + 1)), step g s (p, .fork) = some s₁ →
          (s.proc c).state = .unused → (s₁.proc c).state ≠ .unused →
          ∀ ys s₂, Run.Meets (step g) NoKillZero s₁ ys → Run.exec (step g) s₁ ys = some s₂ →
            (s₂.proc c).pid = (s₁.proc c).pid →
            (∀ y ∈ ys, y.2 ≠ .kill (s₁.proc c).pid) → (s₂.proc c).killed = false := by
  have hzero : ∀ (p : Fin (n + 1)) (c : Int), isZero p c → isZero p 0 := fun _ _ _ => rfl
  obtain ⟨taken, s₀, hb, hg⟩ := boot_ok (n := n) g mem isZero hzero
  refine ⟨taken, s₀, hb, fun xs s hm hr => ?_⟩
  have hgood : Good g isZero taken s := by
    refine Run.exec_invariant_of_meets (fun _ _ _ h' hc hs => ?_) hg hm hr
    refine step_good hzero (fun pid hk p h0 => hc ?_) h' hs
    rw [hk, show pid = 0 from h0]
  refine ⟨fun p hu => hgood.pristine hu, ?_⟩
  intro p c s₁ hfork hu _ ys s₂ hm₂ hr₂ hpid hno
  have hspared : ∀ (p : Fin (n + 1)) (i : Int),
      spared c (s₁.proc c).pid p i → spared c (s₁.proc c).pid p 0 := fun _ _ _ => .inl rfl
  -- the slot is spared from the state before the `fork` on
  have h₁ : Good g (spared c (s₁.proc c).pid) taken s₁ :=
    step_good hspared (fun pid hk => by cases hk) (hgood.spare (hgood.pristine hu).killed) hfork
  have h₂ : Good g (spared c (s₁.proc c).pid) taken s₂ := by
    refine Run.exec_invariant_of_meets (fun _ _ _ h' hc hs => ?_) h₁ (hm₂.and_of_forall hno) hr₂
    refine step_good hspared (fun pid hk p hs => ?_) h' hs
    rcases hs with h0 | ⟨-, hp⟩
    · exact hc.1 (by rw [hk, h0])
    · exact hc.2 (by rw [hk, hp])
  obtain ⟨pipes, h⟩ := h₂
  exact (h.procs c).calm (.inr ⟨rfl, hpid⟩)

theorem kill_ne {i j : Int} (h : i ≠ j) : Op.kill i ≠ Op.kill j := fun he => h (Op.kill.inj he)

/-- After a `fork` and a `kill` of the first process the child is not killed, and the other slots are
clean. -/
theorem clean_slots_boot : ∃ taken s₀ s₁ s₂, bootZeroed smallLayout = .ok (taken, s₀) ∧
    step smallLayout s₀ (0, .fork) = some s₁ ∧
    Run.exec (step smallLayout) s₁ [(1, .kill 1)] = some s₂ ∧ (s₂.proc 0).killed = true ∧
    (s₂.proc 1).killed = false ∧ (s₂.proc 2).Pristine := by
  obtain ⟨taken, s₀, hb, h⟩ := clean_slots 63 smallLayout fun _ => Page.fill 0
  obtain ⟨_, _, s, hb', hr, hu, hrun⟩ : ∃ taken s₀ s, bootZeroed smallLayout = .ok (taken, s₀) ∧
      Run.exec (step smallLayout) s₀ [] = some s ∧ (s.proc 1).state = .unused ∧
      (step smallLayout s (0, .fork)).any (fun s₁ => (s₁.proc 1).state ≠ .unused ∧
        (s₁.proc 1).pid = 2 ∧ (Run.exec (step smallLayout) s₁ [(1, .kill 1)]).any fun s₂ =>
          (s₂.proc 0).killed = true ∧ (s₂.proc 1).pid = 2 ∧ (s₂.proc 2).state = .unused) :=
    exists_run_of_check (by decide +kernel)
  cases hb.symm.trans hb'
  cases hr
  obtain ⟨s₁, hfork, hlive, hpid, s₂, hkill, h0, hpid₂, h2⟩ := by
    simpa only [Option.any_eq_true, decide_eq_true_eq] using hrun
  refine ⟨taken, s₀, s₁, s₂, hb, hfork, hkill, h0, ?_, ?_⟩
  · refine (h [] s₀ trivial rfl).2 0 1 s₁ hfork hu hlive [(1, .kill 1)] s₂ ?_ hkill
      (hpid₂.trans hpid.symm) ?_
    · exact ⟨kill_ne (by decide), fun _ _ => trivial⟩
    · intro y hy
      rw [List.mem_singleton.mp hy]
      exact kill_ne fun he => absurd (he.trans hpid) (by decide)
  · exact (h [(0, .fork), (1, .kill 1)] s₂
      ⟨nofun, fun _ _ => ⟨kill_ne (by decide), fun _ _ => trivial⟩⟩
      (Option.bind_eq_some_iff.mpr ⟨s₁, hfork, hkill⟩)).1 2 h2

/-! ## `kill(0)` -/

/-- After `kill(0)`, a free slot is marked, and the child of the next `fork` starts
killed though no call named its pid. -/
theorem killZero_marks :
    (∃ taken s₀ s, bootZeroed smallLayout = .ok (taken, s₀) ∧
      Run.exec (step smallLayout) s₀ [(0, .kill 0)] = some s ∧
      (s.proc 1).state = .unused ∧ (s.proc 1).killed = true) ∧
    ∃ taken s₀ s, bootZeroed smallLayout = .ok (taken, s₀) ∧
      Run.exec (step smallLayout) s₀ [(0, .kill 0), (0, .fork)] = some s ∧
      (s.proc 1).state = .runnable ∧ (s.proc 1).pid = 2 ∧ (s.proc 1).killed = true :=
  ⟨exists_run_of_check (by decide +kernel), exists_run_of_check (by decide +kernel)⟩

end Xv6.Vm
