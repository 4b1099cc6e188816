import Xv6.Vm.Pids

/-!
# The counter of pids runs over

`allocpid` counts in an `int` and compares the result with nothing.  A `fork` that finds no
memory has taken a pid and gives it up, so `2^31` calls of `fork` make the counter negative.
When memory is free again the next child gets a negative pid, which its parent takes for a
failure.
-/

namespace Xv6.Vm

open Hoare FreeList

variable {n : Nat} {g : Layout} {s s' : Sys n} {p np pp : Fin n} {E : Panic → Prop}
  {safe : Fin n → Int → Prop} {rest pipes : List Nat} {l : List (Fin n)}

/-- A memory of twenty-eight pages, as many as four processes of one page take. -/
def fourProcs : Layout :=
  { smallLayout with ends := PHYSTOP - 28 * PGSIZE, kernbase_le := by decide, room := by decide }

instance (q : Proc n) : Decidable q.Pristine :=
  decidable_of_iff ((q.pid = 0 ∧ q.chan = none ∧ q.xstate = 0 ∧ q.parent = none ∧ q.sz = 0 ∧
      q.pagetable = 0 ∧ q.trapframe = 0 ∧ q.cwd = none ∧ ∀ fd, q.ofile fd = none) ∧
      q.killed = false)
    ⟨fun ⟨⟨h1, h2, h3, h4, h5, h6, h7, h8, h9⟩, h⟩ => ⟨⟨h1, h2, h3, h4, h5, h6, h7, h8, h9⟩, h⟩,
      fun ⟨⟨h1, h2, h3, h4, h5, h6, h7, h8, h9⟩, h⟩ => ⟨⟨h1, h2, h3, h4, h5, h6, h7, h8, h9⟩, h⟩⟩

/-! ## Calls of `fork` that fail -/

/-- A state in which `p` may call `fork`, there is no free page, and `np` is the first free
slot. -/
structure Stuck (s : Sys n) (p np : Fin n) : Prop where
  runs : (s.proc p).state = .runnable ∧ (s.proc p).waiting = none
  full : s.kern.free = 0
  first : (List.finRange n).find? (fun q => (s.proc q).state = .unused) = some np
  slot : (s.proc np).Pristine

def Sys.setNextpid (s : Sys n) (i : Int) : Sys n := { s with nextpid := i }

theorem Stuck.setNextpid (h : Stuck s p np) (i : Int) :
    Stuck (s.setNextpid i) p np := ⟨h.runs, h.full, h.first, h.slot⟩

theorem kalloc_full {k : Machine} (h : k.free = 0) {Q : Nat → Machine → Prop}
    {E : Panic → Prop} (hQ : Q 0 k) : wp kalloc Q E k := by
  rw [kalloc, wp_bind, wp_get, if_pos h]
  exact hQ

theorem Proc.Pristine.cleared {q : Proc n} (h : q.Pristine) (hu : q.state = .unused) :
    q.cleared = q := by
  obtain ⟨⟨hpid, hchan, hxstate, hparent, hsz, hpt, htf, -, -⟩, hkilled⟩ := h
  cases q
  simp_all [Proc.cleared]

theorem freeproc_empty (ht : (s.proc np).trapframe = 0) (hp : (s.proc np).pagetable = 0) :
    wp (freeproc g np) (fun _ s' => s' = s.setProc np (s.proc np).cleared)
      (fun _ => False) s := by
  rw [freeproc, wp_bind, wp_get, wp_bind, ht, whenever, if_neg (by simp), wp_pure, wp_bind,
    wp_modifyProc, wp_bind, hp, whenever, if_neg (by simp), wp_pure, wp_modifyProc]
  simp [Sys.setProc, Proc.cleared]

/-- Without a free page `fork` takes a pid and gives the slot back. -/
theorem Stuck.fork (h : Stuck s p np) :
    wp (Vm.fork g p) (fun _ s' => s' = s.setNextpid (Int.bmod (s.nextpid + 1) (2 ^ 32)))
      (fun _ => False) s := by
  rw [Vm.fork, wp_bind, allocproc, wp_bind, wp_get, h.first]
  simp only
  rw [wp_bind, allocpid, wp_bind, wp_get, wp_bind, wp_set, wp_pure, wp_bind, wp_modifyProc,
    wp_bind, wp_onKern]
  refine kalloc_full h.full ?_
  rw [wp_bind, wp_modifyProc, if_pos rfl, wp_bind]
  refine (freeproc_empty (by simp) (by simpa using h.slot.pagetable)).mono ?_
  rintro _ s' rfl
  have hslot := h.slot.cleared (by simpa using List.find?_some h.first)
  have hupdate : Function.update s.proc np (s.proc np).cleared = s.proc := by
    rw [hslot, Function.update_eq_self]
  simpa [Sys.setProc, Sys.setKern, Sys.setNextpid, Proc.cleared] using hupdate

/-- A call that returns is a step. -/
theorem exists_step {α : Type} {x : SysM n α} {Q : Sys n → Prop} (op : Op)
    (hruns : (s.proc p).state = .runnable ∧ (s.proc p).waiting = none)
    (hop : op.isResume = false) (hx : op.run g p = x >>= fun _ => pure ())
    (h : wp x (fun _ s' => Q s') (fun _ => False) s) :
    ∃ s', step g s (p, op) = some s' ∧ Q s' := by
  have hrun : wp (op.run g p) (fun _ s' => Q s') (fun _ => False) s := by
    rw [hx, wp_bind]
    exact h
  rw [step, if_pos ⟨hruns.1, by rw [hruns.2, hop]; rfl⟩]
  cases hr : op.run g p s with
  | error e => exact ((wp_error hr).mp hrun).elim
  | ok r => exact ⟨r.2, rfl, (wp_ok hr).mp hrun⟩

theorem Stuck.step (h : Stuck s p np) :
    Vm.step g s (p, .fork) = some (s.setNextpid (Int.bmod (s.nextpid + 1) (2 ^ 32))) := by
  obtain ⟨s', hs', rfl⟩ := exists_step (g := g) .fork h.runs rfl rfl h.fork
  exact hs'

/-- Calls of `fork` that fail move the counter on. -/
theorem Stuck.exec (h : Stuck s p np) (hint : Int.bmod s.nextpid (2 ^ 32) = s.nextpid) (k : Nat) :
    Run.exec (Vm.step g) s (List.replicate k (p, .fork)) =
      some (s.setNextpid (Int.bmod (s.nextpid + k) (2 ^ 32))) := by
  induction k generalizing s with
  | zero =>
      rw [Nat.cast_zero, Int.add_zero, hint]
      rfl
  | succ k ih =>
      rw [List.replicate_succ, Run.exec_cons, h.step, Option.bind_some,
        ih (h.setNextpid (Int.bmod (s.nextpid + 1) (2 ^ 32))) Int.bmod_bmod]
      change some (s.setNextpid (Int.bmod (Int.bmod (s.nextpid + 1) (2 ^ 32) + k) (2 ^ 32))) = _
      rw [Int.bmod_add_bmod, Nat.cast_succ, add_assoc, add_comm 1]

instance (s : Sys n) (p np : Fin n) : Decidable (Stuck s p np) :=
  decidable_of_iff (((s.proc p).state = .runnable ∧ (s.proc p).waiting = none) ∧
      s.kern.free = 0 ∧
      (List.finRange n).find? (fun q => (s.proc q).state = .unused) = some np ∧
      (s.proc np).Pristine)
    ⟨fun ⟨h1, h2, h3, h4⟩ => ⟨h1, h2, h3, h4⟩, fun ⟨h1, h2, h3, h4⟩ => ⟨h1, h2, h3, h4⟩⟩

/-! ## Enough memory -/

/-- A process of one page has a child if nine pages are free. -/
theorem fork_cost {i : Fin n} (h : Inv g safe rest pipes [] s) (hsafe : ∀ p c, safe p c → safe p 0)
    (hp : s.Alive p) (hsz : npages (s.proc p).sz = 1) (hi : ¬ s.Alive i)
    (hfree : 9 ≤ s.kern.frees.length) :
    wp (Vm.fork g p) (fun _ s' => ∃ np, ¬ s.Alive np ∧ s'.Alive np) E s := by
  have hi : (s.proc i).state = .unused := by simpa [Sys.Alive] using hi
  rw [Vm.fork, wp_bind]
  refine (allocproc_spec h hsafe).mono ?_
  rintro r s₁ ⟨h₁, hnone, hr⟩
  cases r with
  | none =>
      rcases (hnone rfl).2 with hno | hlt
      · exact absurd hi (hno i)
      · omega
  | some np =>
      obtain ⟨hun, hst, hz, -, hof, -, hother, -, -, hlen⟩ := hr np rfl
      have hpn : p ≠ np := fun he => hp (he ▸ hun)
      have hp₁ : (s₁.proc p).state ≠ .unused := by
        rw [hother p hpn]
        exact hp
      have hnp₁ : (s₁.proc np).state ≠ .unused := by simp [hst]
      have hptp := ((h₁.procs p).live hp₁).2
      have hptn := ((h₁.procs np).live hnp₁).2
      have hsp := (h₁.procs p).space hptp
      have hsn := (h₁.procs np).space hptn
      have ho := h₁.owned_two hpn
      have hz0 : npages (s₁.proc np).sz = 0 := by rw [hz]; rfl
      have hsz₁ : npages (s₁.proc p).sz = 1 := by rw [hother p hpn, hsz]
      rw [Proc.tables_eq hptn, Proc.tables_eq hptp, hz0] at ho
      rw [hz0] at hsn
      rw [wp_bind, wp_get]
      simp only
      rw [wp_bind, wp_onKern]
      refine (uvmcopy_spec hsp hsn ho).mono ?_
      rintro _ k (⟨rfl, hs', ht, -⟩ | ⟨-, hlt, -⟩)
      · have h₂ : Inv g safe rest pipes []
            ((s₁.setKern k).setProc np { s₁.proc np with sz := (s₁.proc p).sz }) :=
          h₁.resize hnp₁ hs' (by rw [hz0]; exact ht)
        rw [if_neg (by decide), wp_bind, wp_modifyProc, wp_bind, wp_onKern]
        refine (copyTrapframe_spec (p := np) h₂ (by simp [hst]) (by simp)).mono fun _ k₃ h₃ => ?_
        rw [wp_bind]
        refine (forkFiles_spec h₃ (List.nodup_finRange _) (by simp [hst]) (by simp [hof])).mono ?_
        rintro _ s₄ -
        simp only [wp_bind, wp_modifyProc, wp_pure]
        exact ⟨np, by simp [Sys.Alive, hun], by simp [Sys.Alive]⟩
      · rw [hsz₁] at hlt
        omega

/-- Nothing but the slot and the free pages changes when a child of one page is reaped. -/
theorem wait_reaps
    (h : Inv g safe rest pipes [] s) (hsz : npages (s.proc pp).sz = 1)
    (hfind : (List.finRange n).find? (fun pp =>
      (s.proc pp).parent = some p ∧ (s.proc pp).state = .zombie) = some pp) :
    wp (wait g p 0) (fun _ s' => ∃ k, s' = (s.setKern k).setProc pp (s.proc pp).cleared ∧
      s.kern.frees.length + 3 ≤ k.frees.length) E s := by
  have hc : (s.proc pp).parent = some p ∧ (s.proc pp).state = .zombie := by
    simpa using List.find?_some hfind
  obtain ⟨htf, hpt⟩ := (h.procs pp).live (by simp [hc.2])
  rw [wait, wp_bind, wp_get, hfind]
  simp only
  rw [wp_bind, wp_onKern, copyoutStatus, if_pos rfl, wp_pure, if_neg (by decide), wp_bind]
  refine (freeproc_spec rfl (h.owned_proc pp).left (h.procs pp).space).mono ?_
  rintro _ s' ⟨k, rfl, ht⟩
  refine ⟨k, rfl, ?_⟩
  have hroot : 0 < (tbl s.kern.mem 2 (s.proc pp).pagetable).length :=
    List.length_pos_of_mem mem_tbl_self
  have hlen := ht.length
  rw [Proc.pages_eq htf hpt, space, hsz, List.length_cons, List.length_append, length_targets,
    List.length_nil, Nat.zero_add] at hlen
  change k.frees.length = _ + s.kern.frees.length at hlen
  omega

/-! ## Calls of `wait` -/

/-- The children of `p` that have ended, each of one page. -/
structure Ended (g : Layout) (s : Sys n) (p : Fin n) (l : List (Fin n)) : Prop where
  good : ∃ taken, Good g (fun _ _ => False) taken s
  runs : (s.proc p).state = .runnable ∧ (s.proc p).waiting = none
  kids : (List.finRange n).filter
    (fun pp => (s.proc pp).parent = some p ∧ (s.proc pp).state = .zombie) = l
  size : ∀ pp ∈ l, npages (s.proc pp).sz = 1

/-- One call of `wait` reaps the first of them. -/
theorem Ended.wait (h : Ended g s p (pp :: l)) :
    ∃ s', Vm.step g s (p, .wait 0) = some s' ∧ Ended g s' p l ∧ s'.nextpid = s.nextpid ∧
      s'.proc p = s.proc p ∧ (∀ q, s'.Alive q → s.Alive q) ∧
      s.kern.frees.length + 3 ≤ s'.kern.frees.length := by
  obtain ⟨taken, pipes, hinv⟩ := h.good
  have hfind : (List.finRange n).find? (fun pp =>
      (s.proc pp).parent = some p ∧ (s.proc pp).state = .zombie) = some pp := by
    rw [← List.head?_filter, h.kids]
    rfl
  have hpp : p ≠ pp := by
    rintro rfl
    have hz := List.find?_some hfind
    simp [h.runs.1] at hz
  obtain ⟨s', hs', k, rfl, hk⟩ := exists_step (g := g) (.wait 0) h.runs rfl rfl
    (wait_reaps hinv (h.size pp List.mem_cons_self) hfind)
  have hgood := step_good (fun _ _ => id) (fun _ _ _ => id) ⟨pipes, hinv⟩ hs'
  have hself : ((s.setKern k).setProc pp (s.proc pp).cleared).proc pp = (s.proc pp).cleared :=
    Function.update_self _ _ _
  have hother : ∀ q, q ≠ pp →
      ((s.setKern k).setProc pp (s.proc pp).cleared).proc q = s.proc q :=
    fun q hq => Function.update_of_ne hq _ _
  have hnd : (pp :: l).Nodup := h.kids ▸ (List.nodup_finRange n).filter _
  obtain ⟨hnot, -⟩ := List.nodup_cons.mp hnd
  refine ⟨_, hs', ⟨⟨taken, hgood⟩, ?_, ?_, fun q hq => ?_⟩, rfl, hother p hpp, fun q hq => ?_, hk⟩
  · rw [hother p hpp]
    exact h.runs
  · -- the others are the ones that had ended before
    have hrest : (pp :: l).filter (· ≠ pp) = l := by
      rw [List.filter_cons_of_neg (by simp), List.filter_eq_self.mpr]
      intro q hq
      simpa using fun he : q = pp => hnot (he ▸ hq)
    rw [← hrest, ← h.kids, List.filter_filter]
    refine List.filter_congr fun q _ => ?_
    by_cases hq : q = pp
    · subst hq
      rw [hself]
      simp [Proc.cleared]
    · rw [hother q hq]
      simp [hq]
  · rw [hother q fun he => hnot (he ▸ hq)]
    exact h.size q (List.mem_cons_of_mem _ hq)
  · by_cases hqp : q = pp
    · subst hqp
      rw [Sys.Alive, hself] at hq
      exact absurd rfl hq
    · rwa [Sys.Alive, hother q hqp] at hq

theorem Ended.waits (h : Ended g s p l) :
    ∃ s', Run.exec (Vm.step g) s (List.replicate l.length (p, .wait 0)) = some s' ∧
      Ended g s' p [] ∧ s'.nextpid = s.nextpid ∧ s'.proc p = s.proc p ∧
      (∀ q, s'.Alive q → s.Alive q) ∧
      s.kern.frees.length + 3 * l.length ≤ s'.kern.frees.length := by
  induction l generalizing s with
  | nil => exact ⟨s, rfl, h, rfl, rfl, fun _ => id, Nat.le_refl _⟩
  | cons pp l ih =>
      obtain ⟨s₁, hs₁, h₁, hn₁, hp₁, ha₁, hk₁⟩ := h.wait
      obtain ⟨s', hs', h', hn', hp', ha', hk'⟩ := ih h₁
      refine ⟨s', ?_, h', hn'.trans hn₁, hp'.trans hp₁, fun q hq => ha₁ q (ha' q hq), ?_⟩
      · rw [List.length_cons, List.replicate_succ, Run.exec_cons, hs₁, Option.bind_some, hs']
      · rw [List.length_cons]
        omega

/-! ## A negative pid -/

/-- Three children have ended, and the counter is at `-2^31`. -/
def Reapable (s : Sys NPROC) : Prop :=
  s.nextpid = -2147483648 ∧
  ((s.proc 0).state = .runnable ∧ (s.proc 0).waiting = none) ∧ (s.proc 0).sz = PGSIZE ∧
  (List.finRange NPROC).filter
    (fun pp => (s.proc pp).parent = some 0 ∧ (s.proc pp).state = .zombie) = [1, 2, 3] ∧
  (∀ pp ∈ [1, 2, 3], (s.proc pp).sz = PGSIZE) ∧ (s.proc 4).state = .unused

instance (s : Sys NPROC) : Decidable (Reapable s) := inferInstanceAs (Decidable (_ ∧ _))

/-- The memory is full after three calls of `fork`, and all children can end. -/
theorem fourProcs_stuck : ∃ taken s₀ s,
    bootZeroed fourProcs = .ok (taken, s₀) ∧
      Run.exec (step fourProcs) s₀ (List.replicate 3 (0, .fork)) = some s ∧
      (Stuck s 0 4 ∧ s.nextpid = 5 ∧
        ((Run.exec (step fourProcs) (s.setNextpid (-2147483648))
          [(1, .exit 0), (2, .exit 0), (3, .exit 0)]).any fun s' => decide (Reapable s')) = true) :=
  exists_run_of_check (by decide +kernel)

/-- The first process forks until the memory is full, and then on until the counter is
negative.  When its children have ended, the next one has a negative pid. -/
theorem pid_negative : ∃ taken s₀ s,
    bootZeroed fourProcs = .ok (taken, s₀) ∧
      Run.exec (step fourProcs) s₀ (List.replicate (2 ^ 31 - 2) (0, .fork) ++
        ([(1, .exit 0), (2, .exit 0), (3, .exit 0)] ++ (List.replicate 3 (0, .wait 0) ++
          [(0, .fork)]))) = some s ∧
      ∃ np, s.Alive np ∧ (s.proc np).pid = -2147483648 := by
  obtain ⟨taken, s₀, s, hb, hr, hstuck, hnext, hend⟩ := fourProcs_stuck
  obtain ⟨s₁, hexit, hpid, hruns, hsz, hkids, hsizes, hslot⟩ := Run.exists_exec_of_check hend
  have hlast : Int.bmod (s.nextpid + (2 ^ 31 - 5 : Nat)) (2 ^ 32) = -2147483648 := by
    rw [hnext]
    decide
  have hforks := hstuck.exec (g := fourProcs) (by rw [hnext]; decide) (2 ^ 31 - 5)
  rw [hlast] at hforks
  have hsplit : (2 ^ 31 - 2 : Nat) = 3 + (2 ^ 31 - 5) := by norm_num
  have hrun₁ : Run.exec (step fourProcs) s₀ (List.replicate (2 ^ 31 - 2) (0, .fork) ++
      [(1, .exit 0), (2, .exit 0), (3, .exit 0)]) = some s₁ := by
    rw [hsplit, List.replicate_add, List.append_assoc, Run.exec_append, hr, Option.bind_some,
      Run.exec_append, hforks, Option.bind_some, hexit]
  have hgood₀ : Good fourProcs (fun _ _ => False) taken s₀ := by
    obtain ⟨taken', s₀', hb', hg⟩ :=
      boot_ok (n := 63) fourProcs (fun _ => Page.fill 0) (fun _ _ => False) fun _ _ => id
    cases hb.symm.trans hb'
    exact hg
  have hgood₁ : Good fourProcs (fun _ _ => False) taken s₁ :=
    Run.exec_invariant (fun _ _ _ => step_good (fun _ _ => id) fun _ _ _ => id) hgood₀ hrun₁
  have hended : Ended fourProcs s₁ 0 [1, 2, 3] :=
    ⟨⟨taken, hgood₁⟩, hruns, hkids, fun pp hpp => by rw [hsizes pp hpp]; rfl⟩
  obtain ⟨s₂, hwaits, h₂, hn₂, hp₂, ha₂, hk₂⟩ := hended.waits
  obtain ⟨taken₂, pipes₂, hinv₂⟩ := h₂.good
  have hfork := fork_cost (E := fun _ => False) (p := 0) (i := 4) hinv₂ (fun _ _ => id)
    (by rw [Sys.Alive, h₂.runs.1]; decide) (by rw [hp₂, hsz]; rfl)
    (fun ha => ha₂ 4 ha hslot) (by simp at hk₂; omega)
  have hnew : wp (fork fourProcs 0) (fun _ s' => ∃ np, s'.Alive np ∧
      (s'.proc np).pid = -2147483648) (fun _ => False) s₂ := by
    refine (hfork.and_returns (fork_pids 0 s₂)).mono ?_
    rintro r s' ⟨⟨np, hdead, hlive⟩, ⟨-, hno⟩ | ⟨-, np', hforked, hlive'⟩⟩
    · exact absurd (hno.alive hlive) hdead
    · exact ⟨np', hlive', by rw [hforked.new hlive', hn₂, hpid]⟩
  obtain ⟨s', hs', hs⟩ := exists_step .fork h₂.runs rfl rfl hnew
  refine ⟨taken, s₀, s', hb, ?_, hs⟩
  rw [← List.append_assoc, Run.exec_append, hrun₁, Option.bind_some]
  exact Run.exec_snoc hwaits hs'

end Xv6.Vm
