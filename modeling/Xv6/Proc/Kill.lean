import Xv6.Proc.Loops

/-!
# Kill and sleep

`kill` wakes a victim that is `SLEEPING`, and a victim that tests `killed()` later
sees the flag.  A victim that has seen the flag clear and has not acquired
`p->lock` in `sleep` yet is missed: it goes to sleep with `p->killed` set
(`kill_lost`).  If no `kill` comes at this point, no process sleeps in a loop after
a `kill` has returned for it (`kill_wakes`).

The flag is clear from the test on: in the window by assumption, and after it
because `sleep` has `p->lock` until the process is `SLEEPING`.
-/

namespace Xv6

variable {m n : Nat} {r : LoopRole} {f : Frame n}

/-! ## The flag -/

/-- What a step of the frame `f` does to `q->killed`. -/
inductive Flags (s : Sys m n) (f : Frame n) (q : Fin n) (k : Bool) : Prop where
  | keep : k = (s.proc q).killed → Flags s f q k
  | kill (pid) : f = .kill pid (.test q) → (s.proc q).pid = pid → k = true → Flags s f q k
  | setkilled : f = .setkilled q .store → k = true → Flags s f q k
  | wait (p) : f = .wait p (.freeFields q) → k = false → Flags s f q k
  | fork (p) : f = .fork p (.freeFields q) → k = false → Flags s f q k

section Flag

variable {s s' : Sys m n} {c : Fin m} {ok : Bool} {f : Frame n} {rest : List (Frame n)}
  {q : Fin n} {u : Proc n → Proc n}

theorem Assigns.flags (h : Assigns s f q u) : Flags s f q (u (s.proc q)).killed := by
  cases h with
  | kill hpid => exact .kill _ rfl hpid rfl
  | setkilled => exact .setkilled rfl rfl
  | waitFree => exact .wait _ rfl rfl
  | forkFree => exact .fork _ rfl rfl
  | _ => exact .keep rfl

theorem Effects.flags {t : Thread m n} (hd : Does s f (code s c ok f))
    (he : Effects s s' c t rest (code s c ok f)) (q : Fin n) :
    Flags s f q (s'.proc q).killed := by
  rcases he.stores hd q with hkeep | ⟨u, hu, ha, -⟩
  · exact .keep (by rw [hkeep])
  · rw [hu]
    exact ha.flags

end Flag

/-! ## The invariant -/

/-- The frames that a process in a loop may have. -/
def LoopRole.Frames (p : Fin n) : LoopRole → Frame n → Prop
  | .idle, _ => True
  | .head _, f | .wake _, f | .done _, f => f.Intr
  | .test _, f => f.Intr ∨ ∃ pc, f = .killed p pc
  | .sleep l, f => f.Intr ∨ ∃ pc, f = .sleep p l.chan (.other l.lock) pc

/-- The process that `kill` has flagged, up to the release of its lock. -/
def KillPc.flags : KillPc n → Option (Fin n)
  | .setState q | .release q true => some q
  | _ => none

structure KillInv (s : Loops m n) : Prop where
  reaps : ∃ l, s.sys.Reaps l
  stage : ∀ p, ∀ f ∈ s.sys.stack (.proc p), (s.role p).Frames p f
  live : ∀ p, s.role p ≠ .idle → (s.sys.proc p).state.Live
  /-- `setkilled` is called for the process itself. -/
  own : ∀ r q pc, .setkilled q pc ∈ s.sys.stack (.proc r) → q = r
  flagged : ∀ r pid pc q, .kill pid pc ∈ s.sys.stack (.proc r) → pc.flags = some q →
    (s.sys.proc q).killed = true
  marked : ∀ q, s.marked q = true → (s.sys.proc q).killed = true
  window : ∀ p, s.window p = true → (s.sys.proc p).killed = false
  sinks : ∀ p, s.inLoop p = true → (s.sys.stack (.proc p)).any Frame.sinks = true →
    (s.sys.proc p).killed = false
  /-- A process that sleeps in a loop is not killed, or the first `kill` is about to
  wake it up. -/
  asleep : ∀ p, s.SleepsInLoop p → (s.sys.proc p).killed = false ∨
    (s.marked p = false ∧ ∃ r pid, .kill pid (.setState p) ∈ s.sys.stack (.proc r))

theorem LoopRole.Frames.leads {p : Fin n} {g : Frame n} (h : r.Frames p f) (hl : f.Leads g) :
    r.Frames p g := by
  cases r with
  | idle => trivial
  | head l => exact Frame.Intr.leads h hl
  | wake pi => exact Frame.Intr.leads h hl
  | done l => exact Frame.Intr.leads h hl
  | test l =>
      rcases h with h | ⟨pc, rfl⟩
      · exact .inl (h.leads hl)
      · cases hl with
        | killed _ _ pc' => exact .inr ⟨pc', rfl⟩
  | sleep l =>
      rcases h with h | ⟨pc, rfl⟩
      · exact .inl (h.leads hl)
      · cases hl with
        | sleep _ _ _ _ pc' => exact .inr ⟨pc', rfl⟩

/-- A process in a loop makes no other calls. -/
theorem LoopRole.Frames.idle {p : Fin n} (h : r.Frames p f) (hi : ¬ f.Intr)
    (hk : ∀ pc, f ≠ .killed p pc) (hs : ∀ chan lk pc, f ≠ .sleep p chan lk pc) :
    r = .idle := by
  cases r with
  | idle => rfl
  | head l => exact absurd h hi
  | wake pi => exact absurd h hi
  | done l => exact absurd h hi
  | test l =>
      rcases h with h | ⟨pc, h⟩
      · exact absurd h hi
      · exact absurd h (hk pc)
  | sleep l =>
      rcases h with h | ⟨pc, h⟩
      · exact absurd h hi
      · exact absurd h (hs _ _ pc)

section Locks

variable {s : Sys m n} {c : Fin m} {f g : Frame n} {rest : List (Frame n)} {q r : Fin n}

/-- A call that holds the lock of a process is innermost on a CPU. -/
theorem SchedInv.holder (h : SchedInv s) (hf : s.Forks) (hm : g ∈ s.stack (.proc r))
    (hg : g.Busy) (hh : g.holds = some q) (hres : ¬ g.Resumes r) :
    ∃ c, (s.cpu c).cur = some r ∧ (∃ rest, s.stack (.proc r) = g :: rest) ∧
      (.proc q, c) ∈ s.locks := by
  have htop : ∃ rest, s.stack (.proc r) = g :: rest := by
    cases hst : s.stack (.proc r) with
    | nil =>
        rw [hst] at hm
        cases hm
    | cons g₀ rest =>
        rw [hst] at hm
        rcases List.mem_cons.mp hm with rfl | hm
        · exact ⟨rest, rfl⟩
        · have := h.frames.lower (.proc r) g (by rw [hst]; exact hm)
          rw [hh] at this
          cases this
  obtain ⟨rest, hst⟩ := htop
  by_cases hoff : s.Off r
  · obtain ⟨f, rest', hst', hf'⟩ := h.cpus.resume r hoff (hf.live r g hm hg)
    rw [hst] at hst'
    cases hst'
    exact absurd hf' hres
  · obtain ⟨c, hc⟩ := not_forall.mp hoff
    rw [not_not] at hc
    refine ⟨c, hc, ⟨rest, hst⟩, ?_⟩
    rw [h.locks.held, stack_of_cur hc, hst]
    exact hh

/-- Two calls do not hold the lock of a process at once. -/
theorem SchedInv.same_holder (h : SchedInv s) (hf : s.Forks) (hst : s.stack (s.thread c) = f :: rest)
    (hfq : f.holds = some q) (hm : g ∈ s.stack (.proc r)) (hg : g.Busy) (hh : g.holds = some q)
    (hres : ¬ g.Resumes r) : (s.cpu c).cur = some r ∧ f = g := by
  obtain ⟨c', hc', ⟨rest', hst'⟩, hlock⟩ := h.holder hf hm hg hh hres
  have hlock' : (.proc q, c) ∈ s.locks := by
    rw [h.locks.held, hst]
    exact hfq
  cases h.locks.one.holder_eq hlock hlock'
  rw [stack_of_cur hc', hst'] at hst
  exact ⟨hc', (List.cons.inj hst).1.symm⟩

/-- `kill` is called by a process. -/
theorem SchedInv.kill_thread (h : SchedInv s) {pid : Int} {pc : KillPc n}
    (hst : s.stack (s.thread c) = .kill pid pc :: rest) : ∃ r, s.thread c = .proc r := by
  have hruns := h.frames.runsOn _ _ (mem_top hst)
  cases ht : s.thread c with
  | scheduler c' =>
      rw [ht] at hruns
      exact hruns.elim
  | proc r => exact ⟨r, rfl⟩

end Locks

theorem KillPc.flags_holds {pc : KillPc n} {pid : Int} {q : Fin n} (h : pc.flags = some q) :
    (Frame.kill pid pc).holds = some q := by
  cases pc with
  | acquire i => cases h
  | test p => cases h
  | setState p => exact h
  | release p found =>
      cases found with
      | true => exact h
      | false => cases h

theorem Loops.inLoop_iff {s : Loops m n} (h : SchedInv s.sys) {p : Fin n} :
    s.inLoop p = true ↔ s.sys.InWait p ∨ ∃ l, s.role p = .sleep l := by
  have hwait : (s.sys.stack (.proc p)).any Frame.isWait = true ↔ s.sys.InWait p := by
    rw [List.any_eq_true]
    constructor
    · rintro ⟨f, hm, hf⟩
      cases f with
      | wait q pc =>
          have hruns := h.frames.runsOn _ _ hm
          cases hruns
          exact ⟨pc, hm⟩
      | _ => cases hf
    · rintro ⟨pc, hm⟩
      exact ⟨_, hm, rfl⟩
  unfold Loops.inLoop
  rw [Bool.or_eq_true, hwait]
  refine or_congr_right ?_
  cases s.role p <;> simp

/-! ## An instruction -/

section Run

variable {s : Loops m n} {t : Sys m n} {c : Fin m} {ok : Bool} {f : Frame n}
  {rest : List (Frame n)} {p q : Fin n}

theorem KillInv.base (h : KillInv s) : SchedInv s.sys := by
  obtain ⟨l, hr⟩ := h.reaps
  exact hr.family.base

theorem KillInv.forks (h : KillInv s) : s.sys.Forks := by
  obtain ⟨l, hr⟩ := h.reaps
  exact hr.forks

theorem KillInv.family (h : KillInv s) : Family s.sys := by
  obtain ⟨l, hr⟩ := h.reaps
  exact hr.family

/-- While a `kill` that has flagged a process holds its lock, the process does not
sleep in a loop. -/
theorem KillInv.not_asleep (h : KillInv s) {pid : Int}
    (hst : s.sys.stack (s.sys.thread c) = .kill pid (.release p true) :: rest) :
    ¬ s.SleepsInLoop p := by
  intro hp
  obtain ⟨r, hr⟩ := h.base.kill_thread hst
  have hk := h.flagged r pid (.release p true) p (by rw [← hr, hst]; exact List.mem_cons_self) rfl
  rcases h.asleep p hp with hno | ⟨-, r', pid', hm⟩
  · rw [hk] at hno
    cases hno
  · cases (h.base.same_holder h.forks hst rfl hm trivial rfl id).2

theorem Loops.seenAfter_cases (s : Loops m n) (a : SchedAct m n) :
    s.seenAfter a = s.seen ∨ ∃ c ok q rest p, a = .run c ok ∧
      s.sys.stack (s.sys.thread c) = .killed q .store :: rest ∧ (s.sys.cpu c).cur = some p ∧
      s.seenAfter a = Function.update s.seen p (some (s.sys.proc q).killed) := by
  cases a with
  | run c ok =>
      simp only [Loops.seenAfter]
      split
      · rename_i q rest p hst hcur
        exact .inr ⟨c, ok, q, rest, p, rfl, hst, hcur, rfl⟩
      · exact .inl rfl
  | _ => exact .inl rfl

theorem Loops.markedAfter_cases (s : Loops m n) (a : SchedAct m n) (q : Fin n) :
    s.markedAfter a q = s.marked q ∨ s.markedAfter a q = false ∨ ∃ c ok pid rest,
      a = .run c ok ∧ s.sys.stack (s.sys.thread c) = .kill pid (.release q true) :: rest := by
  have hcases : s.markedAfter a = s.marked ∨ (∃ r, s.markedAfter a = Function.update s.marked r false) ∨
      ∃ c ok pid r rest, a = .run c ok ∧
        s.sys.stack (s.sys.thread c) = .kill pid (.release r true) :: rest ∧
        s.markedAfter a = Function.update s.marked r true := by
    cases a with
    | run c ok =>
        simp only [Loops.markedAfter]
        split
        · rename_i pid r rest hst
          exact .inr (.inr ⟨c, ok, pid, r, rest, rfl, hst, rfl⟩)
        · exact .inr (.inl ⟨_, rfl⟩)
        · exact .inr (.inl ⟨_, rfl⟩)
        · exact .inl rfl
    | _ => exact .inl rfl
  rcases hcases with hsame | ⟨r, hr⟩ | ⟨c, ok, pid, r, rest, ha, hst, hr⟩
  · exact .inl (congrFun hsame q)
  · rw [hr]
    by_cases hq : q = r
    · rw [hq, Function.update_self]
      exact .inr (.inl rfl)
    · exact .inl (Function.update_of_ne hq ..)
  · by_cases hq : q = r
    · subst hq
      exact .inr (.inr ⟨c, ok, pid, rest, ha, hst⟩)
    · rw [hr]
      exact .inl (Function.update_of_ne hq ..)

/-- The results that a step leaves in the hands of the processes. -/
theorem KillInv.note (h : KillInv s) (a : SchedAct m n) :
    KillInv { s with seen := s.seenAfter a, marked := s.markedAfter a } := by
  refine ⟨h.reaps, h.stage, h.live, h.own, h.flagged, fun q hq => ?_, fun p hw => ?_, h.sinks,
    fun p hp => ?_⟩
  · change s.markedAfter a q = true at hq
    rcases s.markedAfter_cases a q with hsame | hfalse | ⟨c, ok, pid, rest, -, hst⟩
    · exact h.marked q (hsame.symm.trans hq)
    · rw [hfalse] at hq
      cases hq
    · obtain ⟨r, hr⟩ := h.base.kill_thread hst
      exact h.flagged r pid _ q (by rw [← hr, hst]; exact List.mem_cons_self) rfl
  · change (s.sys.proc p).killed = false
    -- the window depends on what has been seen only after a test
    have hseen : s.seenAfter a p = s.seen p → (s.sys.proc p).killed = false := by
      intro hsame
      refine h.window p ?_
      rw [← hw]
      simp only [Loops.window, Loops.inLoop, hsame]
    rcases s.seenAfter_cases a with hsame | ⟨c, ok, q, rest, r, -, hst, hcur, hr⟩
    · exact hseen (congrFun hsame p)
    · by_cases hpr : p = r
      · subst hpr
        rw [stack_of_cur hcur] at hst
        have hstage := h.stage p (.killed q .store) (mem_top hst)
        cases hrole : s.role p with
        | test l =>
            rw [hrole] at hstage
            rcases hstage with hi | ⟨pc, hq⟩
            · exact hi.elim
            · cases hq
              cases hk : (s.sys.proc p).killed with
              | false => rfl
              | true =>
                  have hwin : s.window p = true := by
                    rw [hk] at hr
                    have hw' : Loops.window { s with seen := s.seenAfter a } p = true := hw
                    simp only [Loops.window, Loops.inLoop, hrole, hr, Function.update_self] at hw' ⊢
                    rw [Bool.or_eq_true] at hw' ⊢
                    exact .inl (hw'.resolve_right (by simp))
                  exact absurd (h.window p hwin) (by rw [hk]; simp)
        | _ =>
            refine h.window p ?_
            rw [← hw]
            simp only [Loops.window, Loops.inLoop, hrole]
      · exact hseen (by rw [hr, Function.update_of_ne hpr])
  · rcases h.asleep p hp with hk | ⟨hmark, hkill⟩
    · exact .inl hk
    · rcases s.markedAfter_cases a p with hsame | hfalse | ⟨c, ok, pid, rest, -, hst⟩
      · exact .inr ⟨hsame.trans hmark, hkill⟩
      · exact .inr ⟨hfalse, hkill⟩
      · exact absurd hp (h.not_asleep hst)

/-- A process in `wait` makes no other calls. -/
theorem Kin.wait_mem {s : Sys m n} {st : List (Frame n)} {b : Bool} {pc : WaitPc n}
    (h : Kin s p st b) (hm : .wait q pc ∈ st) {g : Frame n} (hg : g ∈ st) :
    g.Intr ∨ (∃ pc, g = .wait p pc) ∨ ∃ pc, g = .sleep p (.proc p) .wait pc := by
  induction h with
  | apart hap => exact (hap _ hm).elim
  | intr hf _ ih =>
      rcases List.mem_cons.mp hm with rfl | hm
      · exact hf.elim
      · rcases List.mem_cons.mp hg with rfl | hg
        · exact .inl hf
        · exact ih hm hg
  | exit => simp at hm
  | waking => simp at hm
  | wait pc =>
      cases List.mem_singleton.mp hg
      exact .inr (.inl ⟨_, rfl⟩)
  | sleep pc =>
      rcases List.mem_pair.mp hg with rfl | rfl
      · exact .inr (.inr ⟨_, rfl⟩)
      · exact .inr (.inl ⟨_, rfl⟩)
  | fork => simp at hm

theorem KillInv.no_setkilled (h : KillInv s) (hp : s.inLoop p = true ∨ s.window p = true)
    (pc : KilledPc) : .setkilled p pc ∉ s.sys.stack (.proc p) := by
  intro hm
  have hidle := (h.stage p _ hm).idle id (by simp) (by simp)
  have hwait : ∃ q wpc, .wait q wpc ∈ s.sys.stack (.proc p) := by
    have hin : s.inLoop p = true → ∃ q wpc, .wait q wpc ∈ s.sys.stack (.proc p) := by
      intro hin
      rcases (Loops.inLoop_iff h.base).mp hin with ⟨wpc, hw⟩ | ⟨l, hl⟩
      · exact ⟨p, wpc, hw⟩
      · rw [hidle] at hl
        cases hl
    rcases hp with hin' | hw
    · exact hin hin'
    · rw [Loops.window, hidle, Bool.or_false, Bool.or_eq_true, Bool.and_eq_true,
        List.any_eq_true] at hw
      rcases hw with ⟨g, hg, hdec⟩ | ⟨hin', -⟩
      · cases g with
        | wait q wpc => exact ⟨q, wpc, hg⟩
        | _ => cases hdec
      · exact hin hin'
  obtain ⟨q, wpc, hw⟩ := hwait
  obtain ⟨b, hk, -⟩ := h.family.kin p
  rcases hk.wait_mem hw hm with hi | ⟨pc', hx⟩ | ⟨pc', hx⟩
  · exact hi
  · cases hx
  · cases hx

section Step

variable (h : KillInv s) (hst : s.sys.stack (s.sys.thread c) = f :: rest)
  (hd : Does s.sys f (code s.sys c ok f))
  (he : Effects s.sys t c (s.sys.thread c) rest (code s.sys c ok f)) {g : Frame n} {r : Fin n}

include h hst hd he

/-- The frames of a process after an instruction: they were there before, or come
from its own instruction, or the process is being made. -/
theorem KillInv.mem_step (hm : g ∈ t.stack (.proc p)) :
    g ∈ s.sys.stack (.proc p) ∨ (g = .forkret p ∧ (s.sys.proc p).state = .used) ∨
      ((s.sys.cpu c).cur = some p ∧ g ∈ (code s.sys c ok f).next) := by
  by_cases hcur : (s.sys.cpu c).cur = some p
  · have hself := h.base.self_stack hst hd he
    rw [thread_eq_proc.mpr hcur] at hself
    rw [stack_of_cur hcur] at hst
    rw [hself] at hm
    rcases List.mem_append.mp hm with hm | hm
    · exact .inr (.inr ⟨hcur, hm⟩)
    · exact .inl (by rw [hst]; exact List.mem_cons_of_mem _ hm)
  · rcases h.base.other_stack hst hd he hcur with hsame | ⟨hused, hfork⟩
    · exact .inl (by rw [← hsame]; exact hm)
    · rw [hfork] at hm
      exact .inr (.inl ⟨List.mem_singleton.mp hm, hused⟩)

/-- The same for a call that is to return. -/
theorem KillInv.busy_step (hm : g ∈ t.stack (.proc p)) (hg : g.Busy) :
    g ∈ s.sys.stack (.proc p) ∨
      ((s.sys.cpu c).cur = some p ∧ f ∈ s.sys.stack (.proc p) ∧
        g ∈ (code s.sys c ok f).next ∧ f.Leads g) := by
  rcases h.mem_step hst hd he hm with hm | ⟨rfl, -⟩ | ⟨hcur, hm⟩
  · exact .inl hm
  · exact hg.elim
  · refine .inr ⟨hcur, ?_, hm, hd.leads g hm⟩
    rw [← stack_of_cur hcur, hst]
    exact List.mem_cons_self

theorem KillInv.inLoop_step (ht : SchedInv t) (hp : Loops.inLoop { s with sys := t } p = true) :
    s.inLoop p = true := by
  rw [Loops.inLoop_iff h.base]
  rw [Loops.inLoop_iff ht] at hp
  exact hp.imp_left (h.family.inWait_step hst hd he)

theorem KillInv.stage_step (hm : g ∈ t.stack (.proc p)) : (s.role p).Frames p g := by
  rcases h.mem_step hst hd he hm with hm | ⟨-, hused⟩ | ⟨hcur, hm⟩
  · exact h.stage p g hm
  · have hidle : s.role p = .idle := by
      by_contra hr
      have := h.live p hr
      rw [hused] at this
      exact this
    rw [hidle]
    trivial
  · have hf : f ∈ s.sys.stack (.proc p) := by
      rw [← stack_of_cur hcur, hst]
      exact List.mem_cons_self
    exact (h.stage p f hf).leads (hd.leads g hm)

theorem KillInv.live_step (hr : s.role p ≠ .idle) : (t.proc p).state.Live := by
  refine Xv6.live_step hd he (h.live p hr) fun status hf => hr ?_
  subst hf
  have hcur := (h.family.exit_top hst).1
  refine (h.stage p (.exit p status .setState) ?_).idle id (by simp) (by simp)
  rw [← stack_of_cur hcur, hst]
  exact List.mem_cons_self

theorem KillInv.own_step {pc : KilledPc} (hm : .setkilled q pc ∈ t.stack (.proc r)) : q = r := by
  rcases h.busy_step hst hd he hm trivial with hm | ⟨-, hf, -, hl⟩
  · exact h.own r q pc hm
  · cases hl with
    | setkilled _ pc₀ => exact h.own r q pc₀ hf

/-- The flag of a process whose lock a `kill` holds is not cleared. -/
theorem KillInv.flagged_step {pid : Int} {pc : KillPc n} (hm : .kill pid pc ∈ t.stack (.proc r))
    (hq : pc.flags = some q) :
    (t.proc q).killed = true := by
  rcases h.busy_step hst hd he hm trivial with hm | ⟨hcur, hf, hnext, hl⟩
  · have hk := h.flagged r pid pc q hm hq
    have hfree : f.holds = some q → f ≠ .kill pid pc → False := fun hh hne =>
      hne (h.base.same_holder h.forks hst hh hm trivial (KillPc.flags_holds hq) id).2
    cases he.flags hd q with
    | keep hkeep => exact hkeep.trans hk
    | kill _ _ _ ht => exact ht
    | setkilled _ ht => exact ht
    | wait _ hf => exact (hfree (by rw [hf]; rfl) (by rw [hf]; simp)).elim
    | fork _ hf => exact (hfree (by rw [hf]; rfl) (by rw [hf]; simp)).elim
  · cases hl with
    | kill _ pc₀ =>
        cases pc₀ with
        | acquire i =>
            simp only [code, killCode] at hnext
            split at hnext
            · cases List.mem_singleton.mp hnext
              cases hq
            · cases hnext
        | test p =>
            by_cases hpid : (s.sys.proc p).pid = pid
            · have hcode : killCode s.sys pid (.test p) =
                  .store p (fun q => { q with killed := true }) [.kill pid (.setState p)] := by
                simp only [killCode, if_pos hpid]
              rw [code, hcode] at hnext
              cases List.mem_singleton.mp hnext
              cases hq
              rw [he.store q _ _ hcode]
            · have hcode : killCode s.sys pid (.test p) = .goto [.kill pid (.release p false)] := by
                simp only [killCode, if_neg hpid]
              rw [code, hcode] at hnext
              cases List.mem_singleton.mp hnext
              cases hq
        | setState p =>
            have hpc : pc = .release p true := by
              simp only [code, killCode] at hnext
              split at hnext <;> cases List.mem_singleton.mp hnext <;> rfl
            subst hpc
            cases hq
            have hk := h.flagged r pid _ q hf rfl
            cases he.flags hd q with
            | keep hkeep => exact hkeep.trans hk
            | kill _ hf => cases hf
            | setkilled hf => cases hf
            | wait _ hf => cases hf
            | fork _ hf => cases hf
        | release p found =>
            cases found with
            | true => cases hnext
            | false =>
                cases List.mem_singleton.mp hnext
                cases hq

/-- The flag of a process that is about to sleep in a loop stays clear. -/
theorem KillInv.clear_step
    (hspare : ∀ pid, f = .kill pid (.test p) → (s.sys.proc p).pid ≠ pid)
    (hown : ∀ pc, .setkilled p pc ∉ s.sys.stack (.proc p))
    (hk : (s.sys.proc p).killed = false) : (t.proc p).killed = false := by
  cases he.flags hd p with
  | keep hkeep => exact hkeep.trans hk
  | kill pid hf hpid => exact absurd hpid (hspare pid hf)
  | setkilled hf =>
      have hruns := h.base.frames.runsOn _ f (mem_top hst)
      subst hf
      cases ht : s.sys.thread c with
      | scheduler c' =>
          rw [ht] at hruns
          exact hruns.elim
      | proc r =>
          have hm : .setkilled p .store ∈ s.sys.stack (.proc r) := by
            rw [← ht, hst]
            exact List.mem_cons_self
          have hpr := h.own r p _ hm
          subst hpr
          exact absurd hm (hown _)
  | wait _ _ hk' => exact hk'
  | fork _ _ hk' => exact hk'

/-- A process comes into its window by a test. -/
theorem KillInv.window_enter (ht : SchedInv t)
    (hw : Loops.window { s with sys := t } p = true) :
    s.window p = true ∨ (f = .wait p .killedTest ∧ (s.sys.proc p).killed = false) := by
  have hany : ∀ g, g ∈ s.sys.stack (.proc p) → g.decided = true → s.window p = true := by
    intro g hg hdec
    have : (s.sys.stack (.proc p)).any Frame.decided = true := List.any_eq_true.mpr ⟨g, hg, hdec⟩
    simp [Loops.window, this]
  rw [Loops.window, Bool.or_eq_true, Bool.or_eq_true, Bool.and_eq_true, List.any_eq_true,
    List.any_eq_true] at hw
  rcases hw with (⟨g, hm, hdec⟩ | ⟨hin, g, hm, hfalls⟩) | hrole
  · cases g with
    | wait q pc =>
        rcases h.busy_step hst hd he hm trivial with hm | ⟨hcur, hf, hnext, hl⟩
        · exact .inl (hany _ hm hdec)
        · cases hl with
          | wait _ pc₀ =>
              have hruns := h.base.frames.runsOn _ _ hf
              cases hruns
              cases pc₀ with
              | killedTest =>
                  cases List.mem_singleton.mp hnext
                  refine .inr ⟨rfl, ?_⟩
                  cases hk : (s.sys.proc p).killed with
                  | false => rfl
                  | true =>
                      rw [hk] at hdec
                      cases hdec
              | killedRelease k =>
                  cases k with
                  | false => exact .inl (hany _ hf rfl)
                  | true =>
                      cases List.mem_singleton.mp hnext
                      cases hdec
              | scan i havekids =>
                  simp only [code, waitCode] at hnext
                  split at hnext <;> split at hnext <;> cases List.mem_singleton.mp hnext <;>
                    cases hdec
              | test pp =>
                  simp only [code, waitCode] at hnext
                  split at hnext <;> cases List.mem_singleton.mp hnext <;> cases hdec
              | copyout pp =>
                  simp only [code, waitCode] at hnext
                  split at hnext <;> cases List.mem_singleton.mp hnext <;> cases hdec
              | sleep =>
                  rcases List.mem_pair.mp hnext with hx | hx <;> cases hx
                  cases hdec
              | releaseWait => cases hnext
              | _ =>
                  cases List.mem_singleton.mp hnext
                  cases hdec
    | _ => cases hdec
  · cases g with
    | sleep q chan lk pc =>
        cases pc with
        | acquire =>
            rcases h.busy_step hst hd he hm trivial with hm | ⟨hcur, hf, hnext, hl⟩
            · refine .inl ?_
              have hfa : (s.sys.stack (.proc p)).any Frame.falls = true :=
                List.any_eq_true.mpr ⟨_, hm, rfl⟩
              simp [Loops.window, hfa, h.inLoop_step hst hd he ht hin]
            · cases hl with
              | sleep _ _ _ pc₀ =>
                  cases pc₀ with
                  | acquireLk => cases hnext
                  | _ => cases List.mem_singleton.mp hnext
              | waitSleep _ pc₀ =>
                  refine .inl (hany _ hf ?_)
                  cases pc₀ with
                  | sleep => rfl
                  | scan i havekids =>
                      simp only [code, waitCode] at hnext
                      split at hnext <;> split at hnext <;> cases List.mem_singleton.mp hnext
                  | test pp =>
                      simp only [code, waitCode] at hnext
                      split at hnext <;> cases List.mem_singleton.mp hnext
                  | copyout pp =>
                      simp only [code, waitCode] at hnext
                      split at hnext <;> cases List.mem_singleton.mp hnext
                  | killedRelease k => cases k <;> cases List.mem_singleton.mp hnext
                  | releaseWait => cases hnext
                  | _ => cases List.mem_singleton.mp hnext
        | _ => cases hfalls
    | _ => cases hfalls
  · refine .inl ?_
    rw [Loops.window, Bool.or_eq_true]
    exact .inr hrole

theorem KillInv.window_step (ht : SchedInv t)
    (hspare : ∀ pid, f = .kill pid (.test p) → (s.sys.proc p).pid = pid → s.window p = false)
    (hw : Loops.window { s with sys := t } p = true) : (t.proc p).killed = false := by
  rcases h.window_enter hst hd he ht hw with hw | ⟨rfl, hk⟩
  · refine h.clear_step hst hd he (fun pid hf hpid => ?_) (h.no_setkilled (.inr hw)) (h.window p hw)
    rw [hspare pid hf hpid] at hw
    cases hw
  · rw [he.proc p fun u next hu => by cases hu]
    exact hk

theorem KillInv.sinks_step (ht : SchedInv t)
    (hin : Loops.inLoop { s with sys := t } p = true)
    (hs : (t.stack (.proc p)).any Frame.sinks = true) : (t.proc p).killed = false := by
  have hin' := h.inLoop_step hst hd he ht hin
  obtain ⟨g, hm, hg⟩ := List.any_eq_true.mp hs
  -- `sleep` has `p->lock`
  have hold : ∀ g ∈ s.sys.stack (.proc p), g.sinks = true → (t.proc p).killed = false := by
    intro g hm hg
    refine h.clear_step hst hd he (fun pid hf hpid => ?_) (h.no_setkilled (.inl hin'))
      (h.sinks p hin' (List.any_eq_true.mpr ⟨g, hm, hg⟩))
    have hruns := h.base.frames.runsOn _ g hm
    cases g with
    | sleep q chan lk pc =>
        cases hruns.1
        have hh : (Frame.sleep p chan lk pc).holds = some p ∧
            ¬ (Frame.sleep p chan lk pc).Resumes p := by
          cases pc <;> first | exact ⟨rfl, id⟩ | cases hg
        subst hf
        cases (h.base.same_holder h.forks hst rfl hm trivial hh.1 hh.2).2
    | _ => cases hg
  cases g with
  | sleep q chan lk pc =>
      rcases h.busy_step hst hd he hm trivial with hm | ⟨hcur, hf, hnext, hl⟩
      · exact hold _ hm hg
      · cases hl with
        | sleep _ _ _ pc₀ =>
            cases pc₀ with
            | acquire =>
                have hw : s.window p = true := by
                  have hfa : (s.sys.stack (.proc p)).any Frame.falls = true :=
                    List.any_eq_true.mpr ⟨_, hf, rfl⟩
                  simp [Loops.window, hfa, hin']
                rw [he.proc p fun u next hu => by cases hu]
                exact h.window p hw
            | releaseLk => exact hold _ hf rfl
            | setChan => exact hold _ hf rfl
            | acquireLk => cases hnext
            | _ =>
                cases List.mem_singleton.mp hnext
                cases hg
        | waitSleep _ pc₀ => cases hg
  | _ => cases hg

theorem KillInv.asleep_step (ht : SchedInv t)
    (hp : Loops.SleepsInLoop { s with sys := t } p) : (t.proc p).killed = false ∨
      (s.marked p = false ∧ ∃ r pid, .kill pid (.setState p) ∈ t.stack (.proc r)) := by
  obtain ⟨hsleep, hin⟩ := hp
  have hin' := h.inLoop_step hst hd he ht hin
  change (t.proc p).state = .sleeping at hsleep
  obtain ⟨l, hreaps⟩ := h.reaps
  by_cases hs : (s.sys.proc p).state = .sleeping
  · rcases h.asleep p ⟨hs, hin'⟩ with hk | ⟨hmark, r, pid, hm⟩
    · cases he.flags hd p with
      | keep hkeep => exact .inl (hkeep.trans hk)
      | kill pid hf hpid hk' =>
          -- this is the first `kill`
          subst hf
          have hmark : s.marked p = false := by
            cases hmp : s.marked p with
            | false => rfl
            | true =>
                rw [h.marked p hmp] at hk
                cases hk
          obtain ⟨r, hr⟩ := h.base.kill_thread hst
          refine .inr ⟨hmark, r, pid, ?_⟩
          have hself := h.base.self_stack hst hd he
          rw [hr] at hself
          rw [hself]
          simp [code, killCode, hpid, Instr.next]
      | setkilled hf =>
          refine .inl (h.clear_step hst hd he (fun pid hf' => ?_) (h.no_setkilled (.inl hin')) hk)
          rw [hf] at hf'
          cases hf'
      | wait _ _ hk' => exact .inl hk'
      | fork _ _ hk' => exact .inl hk'
    · by_cases hcur : (s.sys.cpu c).cur = some r
      · obtain ⟨c', hc', ⟨rest', hst'⟩, -⟩ := h.base.holder h.forks hm trivial rfl id
        rw [stack_of_cur hcur, hst'] at hst
        cases hst
        have hcode : killCode s.sys pid (.setState p) =
            .store p (fun q => { q with state := .runnable }) [.kill pid (.release p true)] := by
          simp only [killCode, if_pos hs]
        rw [he.store p _ _ hcode] at hsleep
        cases hsleep
      · rcases h.base.other_stack hst hd he hcur with hsame | ⟨hused, -⟩
        · exact .inr ⟨hmark, r, pid, by rw [hsame]; exact hm⟩
        · have := h.forks.live r _ hm trivial
          rw [hused] at this
          exact this.elim
  · -- the process has just fallen asleep
    rcases he.stores hd p with hsame | ⟨u, hu, -, hsto⟩
    · rw [hsame] at hsleep
      exact absurd hsleep hs
    · rw [hu] at hsleep
      cases hsto with
      | keep hst' _ => exact absurd (hst'.symm.trans hsleep) hs
      | wake hst' _ => rcases hst' with hst' | hst' <;> cases hst'.symm.trans hsleep
      | dead _ hno => exact absurd (by rw [hsleep]; trivial) hno
      | exit _ _ hst' _ => cases hst'.symm.trans hsleep
      | setChan _ _ _ hst' _ => exact absurd (hst'.symm.trans hsleep) hs
      | clearChan _ _ _ hst' => exact absurd (hst'.symm.trans hsleep) hs
      | sleep chan lk hf _ _ =>
          subst hf
          have hcur := (h.base.running_in_sleep hst (by simp)).1
          refine .inl ?_
          rw [he.store p _ _ rfl]
          refine h.sinks p hin' (List.any_eq_true.mpr ⟨.sleep p chan lk .setState, ?_, rfl⟩)
          rw [← stack_of_cur hcur, hst]
          exact List.mem_cons_self

omit hst in
theorem KillInv.marked_step
    (hfree : ∀ r, f = .wait r (.freeFields q) ∨ f = .fork r (.freeFields q) → s.marked q = false)
    (hq : s.marked q = true) : (t.proc q).killed = true := by
  cases he.flags hd q with
  | keep hkeep => exact hkeep.trans (h.marked q hq)
  | kill _ _ _ hk => exact hk
  | setkilled _ hk => exact hk
  | wait r hf =>
      rw [hfree r (.inl hf)] at hq
      cases hq
  | fork r hf =>
      rw [hfree r (.inr hf)] at hq
      cases hq

theorem KillInv.instr (hr : ∃ l, t.Reaps l)
    (hspare : ∀ pid p, f = .kill pid (.test p) → (s.sys.proc p).pid = pid → s.window p = false)
    (hfree : ∀ q r, f = .wait r (.freeFields q) ∨ f = .fork r (.freeFields q) →
      s.marked q = false) : KillInv { s with sys := t } := by
  have ht : SchedInv t := by
    obtain ⟨l, hr⟩ := hr
    exact hr.family.base
  exact ⟨hr, fun p g => h.stage_step hst hd he, fun p => h.live_step hst hd he,
    fun r q pc => h.own_step hst hd he, fun r pid pc q => h.flagged_step hst hd he,
    fun q => h.marked_step hd he (hfree q),
    fun p => h.window_step hst hd he ht fun pid => hspare pid p,
    fun p => h.sinks_step hst hd he ht, fun p => h.asleep_step hst hd he ht⟩

end Step

/-- An instruction, with what it leaves in the hands of the processes. -/
theorem KillInv.run (h : KillInv s) (hs' : schedAct s.sys (.run c ok) = some t)
    (hspare : s.Spares (.sys (.run c ok))) :
    KillInv ⟨t, s.role, s.seenAfter (.run c ok), s.markedAfter (.run c ok)⟩ := by
  obtain ⟨l, hr⟩ := h.reaps
  obtain ⟨l', -, hr'⟩ := hr.act hs'
  have hn := h.note (.run c ok)
  rcases h.base.run_effects hs' with ⟨e, rfl⟩ | ⟨f, rest, hst, hd, he⟩
  · exact ⟨⟨l', hr'⟩, hn.stage, hn.live, hn.own, hn.flagged, hn.marked, hn.window, hn.sinks,
      hn.asleep⟩
  · refine hn.instr hst hd he ⟨l', hr'⟩ (fun pid p hf hpid => ?_) fun q r hf => ?_
    · subst hf
      simp only [Loops.Spares, hst] at hspare
      rw [← hspare hpid]
      simp only [Loops.window, Loops.inLoop, Loops.seenAfter, hst]
    · show s.markedAfter (.run c ok) q = false
      rcases hf with rfl | rfl <;> simp [Loops.markedAfter, hst]

end Run

/-! ## The other steps -/

section Quiet

variable {s s' : Loops m n} {c : Fin m} {p q : Fin n} {x y t : Sys m n} {g : Frame n} {r : LoopRole}
  {a : SchedAct m n}

theorem Quiet.mem (hq : Quiet x y) (hm : g ∈ y.stack (.proc p)) :
    g ∈ x.stack (.proc p) ∨ g.Intr ∨
      (x.stack (.proc p) = [] ∧ ∃ f, g = Call.frame p f ∧ y.stack (.proc p) = [g]) := by
  rcases hq.stack p with hsame | ⟨c, -, ⟨hnil, f, hf⟩ | ⟨-, g', hg', hst⟩⟩
  · exact .inl (by rw [← hsame]; exact hm)
  · rw [hf] at hm
    cases List.mem_singleton.mp hm
    exact .inr (.inr ⟨hnil, f, rfl, hf⟩)
  · rw [hst] at hm
    rcases List.mem_cons.mp hm with rfl | hm
    · exact .inr (.inl hg')
    · exact .inl hm

theorem Quiet.mem_of_mem (hq : Quiet x y) (hm : g ∈ x.stack (.proc p)) : g ∈ y.stack (.proc p) := by
  rcases hq.stack p with hsame | ⟨c, -, ⟨hnil, -⟩ | ⟨-, g', -, hst⟩⟩
  · rw [hsame]
    exact hm
  · rw [hnil] at hm
    cases hm
  · rw [hst]
    exact List.mem_cons_of_mem _ hm

/-- A step that is no instruction. -/
theorem KillInv.quiet (h : KillInv s) (hq : Quiet s.sys s'.sys) (hr : ∃ l, s'.sys.Reaps l)
    (hmarked : s'.marked = s.marked)
    (hstage : ∀ p, ∀ f ∈ s'.sys.stack (.proc p), (s'.role p).Frames p f)
    (hlive : ∀ p, s'.role p ≠ .idle → (s.sys.proc p).state.Live)
    (hin : ∀ p, s'.inLoop p = true → s.inLoop p = true ∨
      (s.sys.stack (.proc p) = [] ∧ (s.sys.proc p).state ≠ .sleeping))
    (hwindow : ∀ p, s'.window p = true → (s.sys.proc p).killed = false) : KillInv s' := by
  refine ⟨hr, hstage, fun p hp => ?_, fun r q pc hm => ?_, fun r pid pc q hm hfl => ?_,
    fun q hm => ?_, fun p hw => ?_, fun p hp hs => ?_, fun p hp => ?_⟩
  · rw [hq.proc]
    exact hlive p hp
  · rcases hq.mem hm with hm | hi | ⟨-, f, hf, -⟩
    · exact h.own r q pc hm
    · exact hi.elim
    · cases f <;> cases hf
      rfl
  · rw [hq.proc]
    rcases hq.mem hm with hm | hi | ⟨-, f, hf, -⟩
    · exact h.flagged r pid pc q hm hfl
    · exact hi.elim
    · cases f <;> cases hf
      cases hfl
  · rw [hq.proc]
    exact h.marked q (by rw [← hmarked]; exact hm)
  · rw [hq.proc]
    exact hwindow p hw
  · rw [hq.proc]
    obtain ⟨g, hm, hg⟩ := List.any_eq_true.mp hs
    rcases hq.mem hm with hm | hi | ⟨-, f, rfl, -⟩
    · rcases hin p hp with hin | ⟨hnil, -⟩
      · exact h.sinks p hin (List.any_eq_true.mpr ⟨g, hm, hg⟩)
      · rw [hnil] at hm
        cases hm
    · cases g with
      | yield => cases hg
      | wakeup => cases hg
      | _ => exact hi.elim
    · cases f <;> cases hg
  · obtain ⟨hs, hp⟩ := hp
    rw [hq.proc] at hs ⊢
    rcases hin p hp with hin | ⟨-, hno⟩
    · refine (h.asleep p ⟨hs, hin⟩).imp_right fun ⟨hm, r, pid, hk⟩ => ⟨?_, r, pid, hq.mem_of_mem hk⟩
      rw [hmarked]
      exact hm
    · exact absurd hs hno

theorem Loops.window_congr (hst : s'.sys.stack (.proc p) = s.sys.stack (.proc p))
    (hrole : s'.role p = s.role p) (hseen : s'.seen p = s.seen p) : s'.window p = s.window p := by
  simp only [Loops.window, Loops.inLoop, hst, hrole, hseen]

theorem Loops.inLoop_congr (hst : s'.sys.stack (.proc p) = s.sys.stack (.proc p))
    (hrole : s'.role p = s.role p) : s'.inLoop p = s.inLoop p := by
  simp only [Loops.inLoop, hst, hrole]

/-- The process on a CPU is running when its stack is empty. -/
theorem KillInv.running (h : KillInv s) (hcur : (s.sys.cpu c).cur = some p)
    (hnil : s.sys.stack (.proc p) = []) : (s.sys.proc p).state = .running := by
  rw [(h.base.cpus.onProc c p hcur).2, hnil]
  rfl

theorem LoopRole.Frames.of_intr (hg : g.Intr) : r.Frames p g := by
  cases r with
  | idle => trivial
  | head l => exact hg
  | wake pi => exact hg
  | done l => exact hg
  | test l => exact .inl hg
  | sleep l => exact .inl hg

/-- Interrupts do not count in a loop. -/
theorem Frame.Intr.plain (hg : g.Intr) :
    g.isWait = false ∧ g.decided = false ∧ g.falls = false := by
  cases g with
  | yield => exact ⟨rfl, rfl, rfl⟩
  | wakeup => exact ⟨rfl, rfl, rfl⟩
  | _ => exact hg.elim

/-- A process outside the loops makes a call, or an interrupt comes. -/
theorem KillInv.outside (h : KillInv s) (hq : Quiet s.sys t) (hr : ∃ l, t.Reaps l)
    (hidle : ∀ p f, s.sys.stack (.proc p) = [] → t.stack (.proc p) = [Call.frame p f] →
      s.role p = .idle ∨ (Call.frame p f).Intr) : KillInv { s with sys := t } := by
  -- an interrupt changes nothing for a loop
  have hintr : ∀ {p : Fin n} {g : Frame n}, g.Intr →
      t.stack (.proc p) = g :: s.sys.stack (.proc p) →
      Loops.inLoop { s with sys := t } p = s.inLoop p ∧
        Loops.window { s with sys := t } p = s.window p := by
    intro p g hg hst
    obtain ⟨h1, h2, h3⟩ := hg.plain
    simp only [Loops.window, Loops.inLoop, hst, List.any_cons, h1, h2, h3, Bool.false_or]
    exact ⟨trivial, trivial⟩
  have hcongr : ∀ {p : Fin n}, t.stack (.proc p) = s.sys.stack (.proc p) →
      Loops.inLoop { s with sys := t } p = s.inLoop p ∧
        Loops.window { s with sys := t } p = s.window p := fun hst =>
    ⟨Loops.inLoop_congr hst rfl, Loops.window_congr hst rfl rfl⟩
  refine h.quiet hq hr rfl (fun p f hm => ?_) h.live (fun p hp => ?_) fun p hw => ?_
  · show (s.role p).Frames p f
    rcases hq.mem hm with hm | hi | ⟨hnil, x, rfl, hst⟩
    · exact h.stage p f hm
    · exact .of_intr hi
    · rcases hidle p x hnil hst with hrole | hi
      · rw [hrole]
        trivial
      · exact .of_intr hi
  · rcases hq.stack p with hsame | ⟨c, hcur, ⟨hnil, f, hf⟩ | ⟨-, g, hg, hst⟩⟩
    · exact .inl (by rw [← hp]; exact (hcongr hsame).1.symm)
    · exact .inr ⟨hnil, by rw [h.running hcur hnil]; simp⟩
    · exact .inl (by rw [← hp]; exact (hintr hg hst).1.symm)
  · rcases hq.stack p with hsame | ⟨c, hcur, ⟨hnil, f, hf⟩ | ⟨-, g, hg, hst⟩⟩
    · exact h.window p (by rw [← hw]; exact (hcongr hsame).2.symm)
    · rcases hidle p f hnil hf with hrole | hi
      · -- outside the loops there is no window at the start of a call
        simp only [Loops.window, Loops.inLoop, hf, hrole] at hw
        cases f <;> cases hw
      · exact h.window p (by rw [← hw]; exact (hintr hi (by rw [hf, hnil])).2.symm)
    · exact h.window p (by rw [← hw]; exact (hintr hg hst).2.symm)

/-- The process on a CPU, with an empty stack, moves to another place in a loop. -/
theorem KillInv.move (h : KillInv s) (hcur : (s.sys.cpu c).cur = some p)
    (hnil : s.sys.stack (.proc p) = []) (hq : Quiet s.sys t) (hr : ∃ l, t.Reaps l)
    (helse : ∀ q, q ≠ p → t.stack (.proc q) = s.sys.stack (.proc q))
    (hframes : ∀ f ∈ t.stack (.proc p), r.Frames p f)
    (hwindow : (s.moveTo p r t).window p = true → (s.sys.proc p).killed = false) :
    KillInv (s.moveTo p r t) := by
  have hrole : ∀ {q}, q ≠ p → (s.moveTo p r t).role q = s.role q ∧
      (s.moveTo p r t).seen q = s.seen q := fun hne =>
    ⟨Function.update_of_ne hne .., Function.update_of_ne hne ..⟩
  have hself : (s.moveTo p r t).role p = r := Function.update_self ..
  refine h.quiet hq hr rfl (fun q f hm => ?_) (fun q hrq => ?_) (fun q hin => ?_) fun q hw => ?_
  · by_cases hqp : q = p
    · subst hqp
      rw [hself]
      exact hframes f hm
    · rw [(hrole hqp).1]
      exact h.stage q f (by rw [← helse q hqp]; exact hm)
  · by_cases hqp : q = p
    · rw [hqp, h.running hcur hnil]
      trivial
    · exact h.live q (by rw [← (hrole hqp).1]; exact hrq)
  · by_cases hqp : q = p
    · rw [hqp]
      exact .inr ⟨hnil, by rw [h.running hcur hnil]; simp⟩
    · exact .inl (by rw [← hin]; exact (Loops.inLoop_congr (helse q hqp) (hrole hqp).1).symm)
  · by_cases hqp : q = p
    · subst hqp
      exact hwindow hw
    · refine h.window q ?_
      rw [← hw]
      exact (Loops.window_congr (helse q hqp) (hrole hqp).1 (hrole hqp).2).symm

theorem schedAct_of_step (h : schedStep x a = some y) : schedAct x a = some y := by
  unfold schedStep at h
  split at h
  · exact h
  · cases h

/-- A step of a loop that does something: a call with the frame `f`, or a lock. -/
theorem KillInv.moveAct (h : KillInv s) (hturn : s.Turn c p) (hs' : schedStep s.sys a = some t)
    (hcpu : a.cpu = c) (hrun : ∀ c ok, a ≠ .run c ok)
    (hframes : ∀ f ∈ t.stack (.proc p), r.Frames p f)
    (hwindow : (s.moveTo p r t).window p = true → (s.sys.proc p).killed = false) :
    KillInv (s.moveTo p r t) := by
  obtain ⟨-, hcur, hnil⟩ := hturn
  obtain ⟨l, hr⟩ := h.reaps
  obtain ⟨l', -, hr'⟩ := hr.act (schedAct_of_step hs')
  have ha := h.base.acts (schedAct_of_step hs')
  refine h.move hcur hnil (ha.quiet hrun) ⟨l', hr'⟩ (fun q hqp => ?_) hframes hwindow
  refine ha.elsewhere hrun ?_
  rw [hcpu, hcur]
  exact fun he => hqp (Option.some.inj he).symm

theorem call_stack (h : SchedInv x) {f : Call n} (hf : ∀ status, f ≠ .exit status)
    (hcur : (x.cpu c).cur = some p) (hs' : schedStep x (.call c f) = some y) :
    y.stack (.proc p) = [Call.frame p f] := by
  rcases (call_effects (h.proc_of_cur hcur) (schedAct_of_step hs')).2 with ⟨e, status, hx, -⟩ | rfl
  · exact absurd hx (hf status)
  · rw [← thread_eq_proc.mpr hcur, Sys.stack_setStack_self]

end Quiet

/-! ## Steps of the loops -/

/-- The steps of a loop, by what the process does. -/
inductive LoopRole.Moves (c : Fin m) (seen : Option Bool) (r : LoopRole) :
    Option (SchedAct m n) → LoopRole → Prop where
  | again (l) : Moves c seen r none (.head l)
  | release (lk) : Moves c seen r (some (.release c lk)) .idle
  | killed (l) : Moves c seen r (some (.call c .killed)) (.test l)
  | finish (chan l) : Moves c seen r (some (.call c (.wakeup chan))) (.done l)
  | wakeup {l} (chan pi) : r = .test l → seen = some false →
      Moves c seen r (some (.call c (.wakeup chan))) (.wake pi)
  | sleep (l) : (∃ l', r = .test l' ∧ seen = some false) ∨ (∃ pi, r = .wake pi) →
      Moves c seen r (some (.call c (.sleep l.chan l.lock))) (.sleep l)

theorem LoopRole.move_moves {c : Fin m} {seen : Option Bool} {r' : LoopRole} {x : LoopStep}
    {a : Option (SchedAct m n)} (h : r.move c seen x = some (a, r')) : r.Moves c seen a r' := by
  cases r with
  | idle => cases x <;> cases h
  | head l => cases l <;> cases x <;> cases h <;> constructor
  | wake pi =>
      cases x <;> cases h
      exact .sleep _ (.inr ⟨pi, rfl⟩)
  | sleep l =>
      cases x <;> cases h
      exact .again l
  | done l =>
      cases x <;> cases h
      exact .release _
  | test l =>
      cases x with
      | killed => cases h
      | again => cases h
      | finish => cases h
      | leave =>
          simp only [move] at h
          split at h <;> cases h
          exact .release _
      | copy =>
          cases l <;> simp only [move] at h <;> try cases h
          split at h <;> cases h
          exact .again _
      | wakeup =>
          cases l <;> simp only [move] at h <;> try cases h
          split at h <;> cases h
          exact .wakeup _ _ rfl (by assumption)
      | sleep =>
          cases l <;> simp only [move] at h <;> try cases h
          all_goals
            split at h <;> cases h
            exact .sleep _ (.inl ⟨_, rfl, by assumption⟩)

section Steps

variable {s s' : Loops m n} {c : Fin m} {p : Fin n} {t : Sys m n} {r : LoopRole} {a : SchedAct m n}

/-- No window opens where the process has neither tested the flag nor called `sleep`. -/
theorem Loops.window_moveTo (hwake : ∀ pi, r ≠ .wake pi)
    (hfr : ∀ f ∈ t.stack (.proc p), f.decided = false ∧ f.falls = false) :
    (s.moveTo p r t).window p = false := by
  have hd : (t.stack (.proc p)).any Frame.decided = false :=
    List.any_eq_false.mpr fun f hf => by simp [(hfr f hf).1]
  have hs : (t.stack (.proc p)).any Frame.falls = false :=
    List.any_eq_false.mpr fun f hf => by simp [(hfr f hf).2]
  simp only [Loops.window, Loops.moveTo, Function.update_self, hd, hs, Bool.and_false,
    Bool.false_or]
  cases r with
  | wake pi => exact absurd rfl (hwake pi)
  | _ => rfl

/-- `acquire` and `release` of a process between calls. -/
theorem Acts.intr_of_nil {x y : Sys m n} (ha : Acts x a y) (hrun : ∀ c ok, a ≠ .run c ok)
    (hcall : ∀ c f, a ≠ .call c f) (hcur : (x.cpu a.cpu).cur = some p)
    (hnil : x.stack (.proc p) = []) :
    ∀ f ∈ y.stack (.proc p), f.Intr := by
  intro f hf
  cases ha with
  | run => exact absurd rfl (hrun _ _)
  | call => exact absurd rfl (hcall _ _)
  | halt =>
      rw [show (x.halt _).stack (.proc p) = [] from hnil] at hf
      cases hf
  | lock =>
      rw [show (x.lock _ _).stack (.proc p) = [] from hnil] at hf
      cases hf
  | unlock =>
      rw [show (x.unlock _ _).stack (.proc p) = [] from hnil] at hf
      cases hf
  | interrupt _ hg =>
      rw [thread_eq_proc.mpr hcur, Sys.stack_setStack_self, hnil] at hf
      cases List.mem_singleton.mp hf
      exact hg

theorem KillInv.moveLock (h : KillInv s) (hturn : s.Turn c p) (hs' : schedStep s.sys a = some t)
    (hcpu : a.cpu = c) (hrun : ∀ c ok, a ≠ .run c ok) (hcall : ∀ c f, a ≠ .call c f)
    (hr : r = .idle ∨ ∃ l, r = .head l) :
    KillInv (s.moveTo p r t) := by
  have hintr := (h.base.acts (schedAct_of_step hs')).intr_of_nil hrun hcall
    (hcpu ▸ hturn.2.1) hturn.2.2
  refine h.moveAct hturn hs' hcpu hrun (fun f hf => .of_intr (hintr f hf)) fun hw => ?_
  rw [Loops.window_moveTo (by rcases hr with rfl | ⟨l, rfl⟩ <;> exact nofun)
    fun f hf => (hintr f hf).plain.2] at hw
  cases hw

theorem KillInv.moveCall (h : KillInv s) (hturn : s.Turn c p) {f : Call n}
    (hs' : schedStep s.sys (.call c f) = some t) (hf : ∀ status, f ≠ .exit status)
    (hframe : r.Frames p (Call.frame p f))
    (hwindow : ((∃ pi, r = .wake pi) ∨ (Call.frame p f).falls = true ∨
      (Call.frame p f).decided = true) → s.window p = true) :
    KillInv (s.moveTo p r t) := by
  have hst := call_stack h.base hf hturn.2.1 hs'
  refine h.moveAct hturn hs' rfl nofun (fun g hg => ?_) fun hw => h.window p ?_
  · rw [hst] at hg
    cases List.mem_singleton.mp hg
    exact hframe
  · by_contra hno
    have hno := fun hx => hno (hwindow hx)
    rw [Loops.window_moveTo (fun pi hpi => hno (.inl ⟨pi, hpi⟩)) fun g hg => ?_] at hw
    · cases hw
    · rw [hst] at hg
      cases List.mem_singleton.mp hg
      exact ⟨Bool.eq_false_iff.mpr fun hd => hno (.inr (.inr hd)),
        Bool.eq_false_iff.mpr fun hd => hno (.inr (.inl hd))⟩

theorem KillInv.loop (h : KillInv s) {x : LoopStep} (hs' : loopStep s (.loop c p x) = some s') :
    KillInv s' := by
  simp only [loopStep] at hs'
  split at hs'
  · rename_i hturn
    have hnil := hturn.2.2
    split at hs'
    · cases hs'
    · rename_i r hm
      cases hs'
      cases LoopRole.move_moves hm
      refine h.move hturn.2.1 hnil ⟨rfl, fun _ => .inl rfl⟩ h.reaps (fun _ _ => rfl)
        (fun f hf => ?_) fun hw => ?_
      · rw [hnil] at hf
        cases hf
      · rw [Loops.window_moveTo (fun _ h => by cases h) fun f hf => by rw [hnil] at hf; cases hf] at hw
        cases hw
    · rename_i a r hm
      obtain ⟨t, ht, rfl⟩ := Option.map_eq_some_iff.mp hs'
      cases LoopRole.move_moves hm with
      | release lk => exact h.moveLock hturn ht rfl nofun nofun (.inl rfl)
      | killed l =>
          refine h.moveCall hturn ht nofun (.inr ⟨_, rfl⟩) ?_
          rintro (⟨pi, hpi⟩ | hx | hx) <;> cases ‹_›
      | finish chan l =>
          refine h.moveCall hturn ht nofun (by trivial) ?_
          rintro (⟨pi, hpi⟩ | hx | hx) <;> cases ‹_›
      | wakeup chan pi hr hseen =>
          refine h.moveCall hturn ht nofun (by trivial) fun _ => ?_
          simp [Loops.window, hnil, hr, hseen]
      | sleep l hr =>
          refine h.moveCall hturn ht nofun (.inr ⟨_, rfl⟩) fun _ => ?_
          rcases hr with ⟨l', hr, hseen⟩ | ⟨pi, hr⟩ <;> simp [Loops.window, *]
  · cases hs'

/-- A step of the system that is not an instruction. -/
theorem KillInv.other (h : KillInv s) (hs' : schedAct s.sys a = some t) (hallow : s.Allows a)
    (hrun : ∀ c ok, a ≠ .run c ok) :
    KillInv { s with sys := t } := by
  obtain ⟨l, hr⟩ := h.reaps
  obtain ⟨l', -, hr'⟩ := hr.act hs'
  have ha := h.base.acts hs'
  refine h.outside (ha.quiet hrun) ⟨l', hr'⟩ fun q f hnil hst => ?_
  by_cases hcur : (s.sys.cpu a.cpu).cur = some q
  · by_cases hcall : ∀ c f, a ≠ .call c f
    · exact .inr (ha.intr_of_nil hrun hcall hcur hnil _ (by rw [hst]; exact List.mem_singleton_self _))
    · push Not at hcall
      obtain ⟨c, g, rfl⟩ := hcall
      obtain ⟨r, hr, hidle⟩ := hallow
      cases hr.symm.trans hcur
      exact .inl hidle
  · rw [ha.elsewhere hrun hcur, hnil] at hst
    cases hst

theorem KillInv.step (h : KillInv s) {a : LoopAct m n} (hspare : s.Spares a)
    (hs' : loopStep s a = some s') : KillInv s' := by
  cases a with
  | loop c p x => exact h.loop hs'
  | enter c p l =>
      simp only [loopStep] at hs'
      split at hs'
      · rename_i hturn
        obtain ⟨t, ht, rfl⟩ := Option.map_eq_some_iff.mp hs'
        exact h.moveLock hturn.1 ht rfl nofun nofun (.inr ⟨l, rfl⟩)
      · cases hs'
  | sys a =>
      simp only [loopStep] at hs'
      split at hs'
      · rename_i hallow
        obtain ⟨t, ht, rfl⟩ := Option.map_eq_some_iff.mp hs'
        cases a with
        | run c ok => exact h.run (schedAct_of_step ht) hspare
        | _ => exact h.other (schedAct_of_step ht) hallow nofun
      · cases hs'

theorem KillInv.init (m n : Nat) (initproc : Fin n) : KillInv (Loops.init m n initproc) where
  reaps := ⟨_, Sys.Reaps.init m n initproc⟩
  stage _ _ _ := trivial
  live _ h := absurd rfl h
  own r q pc h := by cases Sys.init_stack h
  flagged r pid pc q h := by cases Sys.init_stack h
  marked _ h := by cases h
  window p _ := (Sys.init_proc initproc p).1
  sinks p _ _ := (Sys.init_proc initproc p).1
  asleep p _ := .inl (Sys.init_proc initproc p).1

theorem KillInv.exec {initproc : Fin n} {as : List (LoopAct m n)}
    (hrun : Run.exec loopStep (Loops.init m n initproc) as = some s)
    (hm : Run.Meets loopStep Loops.Spares (Loops.init m n initproc) as) : KillInv s :=
  Run.exec_invariant_of_meets (fun _ _ _ hi hc hs' => hi.step hc hs') (.init m n initproc) hm hrun

end Steps

/-! ## A lost kill -/

/-- `init` forks a child and waits.  The child, process 1, forks a child of its own,
process 2, and calls `wait`; on the other CPU process 2 calls `kill` of process 1. -/
def lateKill (between : List (LoopAct 2 3)) : List (LoopAct 2 3) :=
  let run (c : Fin 2) (k : Nat) : List (LoopAct 2 3) := .replicate k (.sys (.run c true))
  run 0 5 ++ .sys (.call 0 .fork) :: run 0 20 ++ .sys (.call 0 .wait) :: run 0 24 ++
    .sys (.call 0 .fork) :: run 0 23 ++ run 1 11 ++ .sys (.call 0 .wait) :: run 0 11 ++
    between ++ .sys (.call 1 (.kill 2)) :: run 1 7

/-- After `killed()` has returned 0 in `wait`, and before the `sleep`, the `kill` runs
and returns 0.  The victim then goes to sleep. -/
theorem kill_lost : ∃ s, Run.exec loopStep (Loops.init 2 3 0)
    (lateKill [] ++ .replicate 5 (.sys (.run 0 true))) = some s ∧
    s.marked 1 = true ∧ s.SleepsInLoop 1 ∧ (s.sys.proc 1).killed = true :=
  Run.exists_exec_of_check (by decide +kernel)

/-- No process sleeps in one of the loops after a `kill` has returned 0 for it, in a
run where no `kill` comes between the test of the flag and the `sleep`. -/
theorem kill_wakes {initproc : Fin n} {as : List (LoopAct m n)} {s : Loops m n}
    (hrun : Run.exec loopStep (Loops.init m n initproc) as = some s)
    (hm : Run.Meets loopStep Loops.Spares (Loops.init m n initproc) as) (p : Fin n)
    (hmarked : s.marked p = true) :
    ¬ (s.SleepsInLoop p ∧ (s.sys.proc p).killed = true) := by
  rintro ⟨hs, hk⟩
  rcases (KillInv.exec hrun hm).asleep p hs with hno | ⟨hno, -⟩
  · cases hk.symm.trans hno
  · cases hmarked.symm.trans hno

/-- Here process 1 is `SLEEPING` before the `kill`, which wakes it up. -/
theorem kill_wakes_asleep : ∃ s, Run.exec loopStep (Loops.init 2 3 0)
    (lateKill (.replicate 8 (.sys (.run 0 true)))) = some s ∧
    s.marked 1 = true ∧ s.inLoop 1 = true ∧ (s.sys.proc 1).state ≠ .sleeping := by
  have hrun : ∃ s, Run.exec loopStep (Loops.init 2 3 0)
      (lateKill (.replicate 8 (.sys (.run 0 true)))) = some s ∧
      (s.marked 1 = true ∧ s.inLoop 1 = true ∧ (s.sys.proc 1).killed = true) :=
    Run.exists_exec_of_check (by decide +kernel)
  obtain ⟨s, hs, hmarked, hin, hk⟩ := hrun
  exact ⟨s, hs, hmarked, hin, fun hx => kill_wakes hs (by decide +kernel) 1 hmarked ⟨⟨hx, hin⟩, hk⟩⟩

end Xv6
