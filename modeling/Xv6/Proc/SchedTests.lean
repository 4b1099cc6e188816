import Xv6.Proc.FamilySelf

/-!
# The tests of `sched`

`sched` stops the kernel if its caller does not hold `p->lock`, if it holds another lock besides,
or if it has left `p` in `RUNNING`.  In a run only the second can happen, to a process that sleeps
or yields with a lock of its own.
-/

namespace Xv6

variable {m n : Nat} {s : Sys m n} {c : Fin m} {ok : Bool} {f : Frame n}
  {rest next : List (Frame n)}

/-- The caller of `sched` holds the lock of its process, which is not `RUNNING`. -/
theorem SchedInv.caller_of_sched (h : SchedInv s) (hst : s.stack (s.thread c) = f :: rest)
    (hi : code s c ok f = .sched next) : ∃ p, (s.cpu c).proc = some p ∧ (.proc p, c) ∈ s.locks ∧
      (s.proc p).state ≠ .running := by
  obtain ⟨p, hruns, hholds, hown⟩ : ∃ p, (∀ t : Thread m n, f.RunsOn t → t = .proc p) ∧
      f.holds = some p ∧ f.own ≠ .running := by
    rcases code_sched hi with ⟨p, rfl⟩ | ⟨p, chan, lk, rfl⟩ | ⟨p, status, rfl⟩
    · exact ⟨p, fun _ ht => ht, rfl, nofun⟩
    · exact ⟨p, fun _ ht => ht.1, rfl, nofun⟩
    · exact ⟨p, fun _ ht => ht, rfl, nofun⟩
  have hcur := h.cur_of_runsOn hst hruns
  refine ⟨p, h.proc_of_cur hcur, (h.locks.held c p).mpr (by rw [hst]; exact hholds), ?_⟩
  rw [(h.cpus.onProc c p hcur).2, ← thread_eq_proc.mpr hcur, hst]
  exact hown

/-- In every run the caller of `sched` holds `p->lock` and is not `RUNNING`.  The tests of `sched`
pass exactly if the CPU holds no other lock, and otherwise it is for that lock that they fail. -/
theorem sched_tests {initproc : Fin n} {as : List (SchedAct m n)}
    (hrun : Run.exec schedStep (Sys.init m n initproc) as = some s)
    (hst : s.stack (s.thread c) = f :: rest) (hi : code s c ok f = .sched next) :
    ∃ p, (s.cpu c).proc = some p ∧ (.proc p, c) ∈ s.locks ∧ (s.proc p).state ≠ .running ∧
      (s.schedTests c = none ↔ ∀ lk, (lk, c) ∈ s.locks → lk = .proc p) ∧
      (s.schedTests c ≠ none → s.schedTests c = some .schedLocks) := by
  have h := SchedInv.run hrun
  obtain ⟨p, hp, hlock, hstate⟩ := h.caller_of_sched hst hi
  refine ⟨p, hp, hlock, hstate, ?_⟩
  rw [← h.locks.one.count_eq_one_iff hlock, ← h.locks.noff c]
  by_cases hn : (s.cpu c).noff = 1
  · simp [Sys.schedTests, hp, hlock, hstate, hn]
  · simp [Sys.schedTests, hp, hlock, hn]

/-- The first process yields, after it has done `own`. -/
def firstYield (own : List (SchedAct 2 2)) : List (SchedAct 2 2) :=
  firstRun ++ own ++ .call 0 .yield :: List.replicate 2 (.run 0 true)

theorem firstYield_isSome : (Run.exec schedStep (Sys.init 2 2 0) (firstYield [])).isSome := by
  decide

theorem firstYield_acquire_isSome :
    (Run.exec schedStep (Sys.init 2 2 0) (firstYield [.acquire 0 0])).isSome := by decide

/-- The first process yields with no lock of its own, and with one. -/
theorem sched_tests_firstYield :
    (∃ s, Run.exec schedStep (Sys.init 2 2 0) (firstYield []) = some s ∧
      s.stack (s.thread 0) = [.yield 0 .sched] ∧ s.schedTests 0 = none) ∧
    ∃ s, Run.exec schedStep (Sys.init 2 2 0) (firstYield [.acquire 0 0]) = some s ∧
      s.stack (s.thread 0) = [.yield 0 .sched] ∧ s.schedTests 0 = some .schedLocks := by
  constructor
  · have hs := (Option.some_get firstYield_isSome).symm
    have hi : code (Option.get _ firstYield_isSome) 0 true (.yield 0 .sched) = .sched _ := rfl
    obtain ⟨p, -, hlock, -, hpass, -⟩ := sched_tests hs rfl hi
    have hone : (Option.get _ firstYield_isSome).locks = [(.proc 0, 0)] := by decide
    rw [hone] at hlock hpass
    refine ⟨_, hs, rfl, hpass.mpr fun lk hlk => ?_⟩
    exact congrArg Prod.fst ((List.mem_singleton.mp hlk).trans (List.mem_singleton.mp hlock).symm)
  · have hs := (Option.some_get firstYield_acquire_isSome).symm
    have hi : code (Option.get _ firstYield_acquire_isSome) 0 true (.yield 0 .sched) =
      .sched _ := rfl
    obtain ⟨p, -, -, -, hpass, hfail⟩ := sched_tests hs rfl hi
    have hown : (.other 0, 0) ∈ (Option.get _ firstYield_acquire_isSome).locks := by decide
    exact ⟨_, hs, rfl, hfail fun hnone => nomatch hpass.mp hnone _ hown⟩

end Xv6
