import Xv6.Proc.FamilySteps

/-!
# Reaping

What `wait` returns.  The history of a run says which processes have exited, with
which pid and status, and which children `wait` has returned to whom.  A ledger
of the zombies that have not been returned is kept along the history: a child is
returned once, to its parent, as it exited.
-/

namespace Xv6

variable {m n : Nat}

/-! ## Events -/

/-- A process has exited, or `wait` of `p` has found its child `q` and copied out
its status, and is going to return its pid. -/
inductive Event (n : Nat) where
  | exited (q : Fin n) (pid status : Int)
  | reaped (p q : Fin n) (pid status : Int)
deriving DecidableEq

/-- The event of a step of a frame. -/
def Frame.event (s : Sys m n) (ok : Bool) : Frame n → Option (Event n)
  | .exit q status .setState => some (.exited q (s.proc q).pid status)
  | .wait p (.copyout q) => if ok then some (.reaped p q (s.proc q).pid (s.proc q).xstate) else none
  | _ => none

def Sys.event (s : Sys m n) : SchedAct m n → Option (Event n)
  | .run c ok => (s.stack (s.thread c)).head?.bind (Frame.event s ok)
  | _ => none

/-- The events of a run. -/
def events (s : Sys m n) : List (SchedAct m n) → List (Event n)
  | [] => []
  | a :: as =>
      match schedStep s a with
      | none => []
      | some s' => (s.event a).toList ++ events s' as

/-- The processes that have exited and have not been returned, with pid and status. -/
abbrev Ledger (n : Nat) := Fin n → Option (Int × Int)

/-- Enter an event into the ledger.  A process exits when it has no entry, and is
returned with its entry. -/
def settle (l : Ledger n) : Event n → Option (Ledger n)
  | .exited q pid status =>
      if l q = none then some (Function.update l q (some (pid, status))) else none
  | .reaped _ q pid status =>
      if l q = some (pid, status) then some (Function.update l q none) else none

/-! ## The ledger and the process table -/

/-- `wait` has taken the process and is freeing it. -/
def Sys.Taken (s : Sys m n) (q : Fin n) : Prop :=
  ∃ p, s.stack (.proc p) = [.wait p (.freeFields q)] ∨ s.stack (.proc p) = [.wait p (.freeState q)]

/-- The ledger lists the zombies. -/
structure Sys.Lists (s : Sys m n) (l : Ledger n) : Prop where
  entry : ∀ q pid status, l q = some (pid, status) →
    (s.proc q).state = .zombie ∧ (s.proc q).pid = pid ∧ (s.proc q).xstate = status
  zombie : ∀ q, (s.proc q).state = .zombie → l q ≠ none ∨ s.Taken q
  taken : ∀ q, s.Taken q → l q = none

section Steps

variable {s s' : Sys m n} {c : Fin m} {ok : Bool} {f : Frame n} {rest : List (Frame n)}
  {p q : Fin n} {l : Ledger n}

/-- An instruction with an event does not stop the system. -/
theorem SchedInv.run_event (h : SchedInv s) (hs' : schedAct s (.run c ok) = some s') :
    (∃ e, s' = s.halt e ∧ s.event (.run c ok) = none) ∨ ∃ f rest,
      s.stack (s.thread c) = f :: rest ∧ s.event (.run c ok) = f.event s ok ∧
      Does s f (code s c ok f) ∧ Effects s s' c (s.thread c) rest (code s c ok f) := by
  simp only [schedAct] at hs'
  split at hs'
  · cases hs'
  · rename_i f rest hst
    have hev : s.event (.run c ok) = f.event s ok := by simp [Sys.event, hst]
    have hd := h.code_does hst ok
    rcases exec_effects hs' with ⟨e, rfl⟩ | he
    · cases f with
      | exit q status pc =>
          cases pc with
          | setState => exact .inr ⟨_, rest, hst, hev, hd, exec_store hs'⟩
          | _ => exact .inl ⟨e, rfl, hev⟩
      | wait p pc =>
          cases pc with
          | copyout pp =>
              refine .inr ⟨_, rest, hst, hev, hd, ?_⟩
              cases ok <;> exact exec_goto hs'
          | _ => exact .inl ⟨e, rfl, hev⟩
      | _ => exact .inl ⟨e, rfl, hev⟩
    · exact .inr ⟨f, rest, hst, hev, hd, he⟩

section Run

variable (h : Family s) (hst : s.stack (s.thread c) = f :: rest)
  (hd : Does s f (code s c ok f)) (he : Effects s s' c (s.thread c) rest (code s c ok f))

include h hst he

/-- A zombie that has not been taken stays what it is. -/
theorem Family.zombie_stays (hz : (s.proc q).state = .zombie) (hq : ¬ s.Taken q) :
    (s'.proc q).state = .zombie ∧ (s'.proc q).pid = (s.proc q).pid ∧
      (s'.proc q).xstate = (s.proc q).xstate := by
  cases h.writes_step hst he q with
  | keep hs _ hpid hx => exact ⟨hs.trans hz, hpid, hx⟩
  | live hl => exact absurd hz hl.ne_zombie
  | unborn _ _ _ hb => exact absurd (by rw [hz]; trivial) hb
  | setParent _ _ hy => rw [hy]; exact ⟨hz, rfl, rfl⟩
  | setRunnable p hf hy =>
      have hu := (h.base.frames.used _ f q (mem_top hst)
        (by rw [hf]; rfl)).1
      cases hu.symm.trans hz
  | reparent _ _ _ _ hy => rw [hy]; exact ⟨hz, rfl, rfl⟩
  | setXstate status hf =>
      subst hf
      have hcur := (h.exit_top hst).1
      cases (h.base.state_of_cur hcur (by rw [← stack_of_cur hcur]; exact hst)).symm.trans hz
  | exit status hf hy => rw [hy]; exact ⟨rfl, rfl, rfl⟩
  | freeFields p hf =>
      subst hf
      obtain ⟨hcur, rfl, -⟩ := h.wait_top hst
      exact absurd ⟨p, .inl (by rw [← stack_of_cur hcur]; exact hst)⟩ hq
  | freeState p hf =>
      subst hf
      obtain ⟨hcur, rfl, -⟩ := h.wait_top hst
      exact absurd ⟨p, .inr (by rw [← stack_of_cur hcur]; exact hst)⟩ hq

/-- A process becomes a zombie in `exit`. -/
theorem Family.zombie_step (hz : (s'.proc q).state = .zombie) :
    (s.proc q).state = .zombie ∨ ∃ status, f = .exit q status .setState := by
  cases h.writes_step hst he q with
  | keep hs => exact .inl (hs.symm.trans hz)
  | live _ hl => exact absurd hz hl.ne_zombie
  | unborn _ _ _ _ hb => exact absurd (by rw [hz]; trivial) hb
  | exit status hf => exact .inr ⟨status, hf⟩
  | setParent _ _ hy => exact .inl (by rw [hy] at hz; exact hz)
  | reparent _ _ _ _ hy => exact .inl (by rw [hy] at hz; exact hz)
  | setXstate _ _ hy => exact .inl (by rw [hy] at hz; exact hz)
  | freeFields _ _ hy => exact .inl (by rw [hy] at hz; exact hz)
  | setRunnable _ _ hy => rw [hy] at hz; cases hz
  | freeState _ _ hy => rw [hy] at hz; cases hz

omit hst he in
/-- The `wait` that has taken a child has `wait_lock`. -/
theorem Family.taken_top (hq : s.Taken q) :
    ∃ p pc, (pc = .freeFields q ∨ pc = .freeState q) ∧ s.stack (.proc p) = [.wait p pc] ∧
      s.Holds .wait p ∧ (s.proc q).state = .zombie := by
  obtain ⟨p, hp⟩ := hq
  obtain ⟨pc, hpc, hstack⟩ : ∃ pc, (pc = .freeFields q ∨ pc = .freeState q) ∧
      s.stack (.proc p) = [.wait p pc] := by
    rcases hp with hp | hp
    · exact ⟨_, .inl rfl, hp⟩
    · exact ⟨_, .inr rfl, hp⟩
  obtain ⟨b, hk, hb⟩ := h.kin p
  rw [hstack] at hk
  obtain ⟨-, rfl, -⟩ := hk.wait_top
  refine ⟨p, pc, hpc, hstack, hb.mp (by rcases hpc with rfl | rfl <;> rfl), ?_⟩
  refine (h.base.frames.sees (.proc p) (.wait p pc) q .zombie ?_ ?_).1
  · rw [hstack]
    exact List.mem_cons_self
  · rcases hpc with rfl | rfl <;> rfl

include hd

/-- A child that has been taken is being freed. -/
theorem Family.taken_stays (hq : s.Taken q) (hz : (s'.proc q).state = .zombie) : s'.Taken q := by
  have hself := h.base.self_stack hst hd he
  obtain ⟨p, pc, hpc, hp, ⟨c', hc', -⟩, -⟩ := h.taken_top hq
  by_cases hcur : (s.cpu c).cur = some p
  · rw [thread_eq_proc.mpr hcur] at hself
    rw [stack_of_cur hcur, hp] at hst
    cases hst
    rcases hpc with rfl | rfl
    · exact ⟨p, .inr hself⟩
    · rw [he.store q _ _ rfl] at hz
      cases hz
  · rcases h.base.other_stack hst hd he hcur with hsame | ⟨hused, -⟩
    · rw [← hsame] at hp
      rcases hpc with rfl | rfl
      · exact ⟨p, .inl hp⟩
      · exact ⟨p, .inr hp⟩
    · exact absurd hused (h.base.state_of_claims (h.base.claims_of_cur hc')).2

/-- `wait` takes a child when it has copied out its status. -/
theorem Family.taken_step (hq : s'.Taken q) :
    s.Taken q ∨ ∃ p, f = .wait p (.copyout q) ∧ ok = true := by
  have hself := h.base.self_stack hst hd he
  obtain ⟨p, hp⟩ := hq
  by_cases hcur : (s.cpu c).cur = some p
  · rw [thread_eq_proc.mpr hcur] at hself
    obtain ⟨pc, hpc, hstack⟩ : ∃ pc, (pc = .freeFields q ∨ pc = .freeState q) ∧
        s'.stack (.proc p) = [.wait p pc] := by
      rcases hp with hp | hp
      · exact ⟨_, .inl rfl, hp⟩
      · exact ⟨_, .inr rfl, hp⟩
    rw [hself] at hstack
    cases hn : (code s c ok f).next with
    | nil =>
        -- the frames below the innermost one hold no lock
        rw [hn, List.nil_append] at hstack
        have := h.base.rest_holds hst (.wait p pc) (mem_top hstack)
        rcases hpc with rfl | rfl <;> cases this
    | cons g next =>
        rw [hn] at hstack
        obtain ⟨rfl, -⟩ := List.cons.inj hstack
        have hmem : Frame.wait p pc ∈ (code s c ok f).next := by
          rw [hn]
          exact List.mem_cons_self
        have hl := hd.leads _ hmem
        cases hl with
        | wait _ pc₀ =>
            obtain ⟨-, rfl, -⟩ := h.wait_top hst
            cases pc₀ with
            | copyout pp =>
                cases ok with
                | true =>
                    cases List.mem_singleton.mp hmem
                    rcases hpc with hpc | hpc <;> cases hpc
                    exact .inr ⟨p, rfl, rfl⟩
                | false =>
                    cases List.mem_singleton.mp hmem
                    rcases hpc with hpc | hpc <;> cases hpc
            | freeFields pp =>
                cases List.mem_singleton.mp hmem
                rcases hpc with hpc | hpc <;> cases hpc
                exact .inl ⟨p, .inl (by rw [← stack_of_cur hcur]; exact hst)⟩
            | scan i havekids =>
                simp only [code, waitCode] at hmem
                split at hmem <;> split at hmem <;> cases List.mem_singleton.mp hmem <;>
                  rcases hpc with hpc | hpc <;> cases hpc
            | test pp =>
                simp only [code, waitCode] at hmem
                split at hmem <;> cases List.mem_singleton.mp hmem <;>
                  rcases hpc with hpc | hpc <;> cases hpc
            | killedRelease k =>
                cases k <;> cases List.mem_singleton.mp hmem <;>
                  rcases hpc with hpc | hpc <;> cases hpc
            | sleep =>
                rcases List.mem_pair.mp hmem with hm | hm <;> cases hm
                rcases hpc with hpc | hpc <;> cases hpc
            | releaseWait => cases hmem
            | _ =>
                cases List.mem_singleton.mp hmem
                rcases hpc with hpc | hpc <;> cases hpc
  · rcases h.base.other_stack hst hd he hcur with hsame | ⟨-, hfork⟩
    · exact .inl ⟨p, by rw [← hsame]; exact hp⟩
    · rw [hfork] at hp
      rcases hp with hp | hp <;> cases hp

omit hd in
/-- The entries and the zombies of a step that no process exits in. -/
theorem Sys.Lists.entry_step (hl : s.Lists l) {pid status : Int} (hq : l q = some (pid, status)) :
    (s'.proc q).state = .zombie ∧ (s'.proc q).pid = pid ∧ (s'.proc q).xstate = status := by
  obtain ⟨hz, rfl, rfl⟩ := hl.entry q pid status hq
  refine h.zombie_stays hst he hz fun ht => ?_
  rw [hl.taken q ht] at hq
  cases hq

theorem Sys.Lists.zombie_step (hl : s.Lists l) (hz : (s'.proc q).state = .zombie)
    (hno : ∀ status, f ≠ .exit q status .setState) : l q ≠ none ∨ s'.Taken q := by
  rcases h.zombie_step hst he hz with hz' | ⟨status, hf⟩
  · exact (hl.zombie q hz').imp_right fun ht => h.taken_stays hst hd he ht hz
  · exact absurd hf (hno status)

end Run

theorem Sys.Lists.exited (hl : s.Lists l) (h : Family s) {status : Int}
    (hst : s.stack (s.thread c) = .exit q status .setState :: rest)
    (hd : Does s (.exit q status .setState) (code s c ok (.exit q status .setState)))
    (he : Effects s s' c (s.thread c) rest (code s c ok (.exit q status .setState))) :
    ∃ l', settle l (.exited q (s.proc q).pid status) = some l' ∧ s'.Lists l' := by
  obtain ⟨hcur, -, -, -, -, -, hx⟩ := h.exit_top hst
  have hrun := h.base.state_of_cur hcur (by rw [← stack_of_cur hcur]; exact hst)
  have hq : l q = none := by
    cases hlq : l q with
    | none => rfl
    | some e => cases hrun.symm.trans (hl.entry q e.1 e.2 hlq).1
  refine ⟨Function.update l q (some ((s.proc q).pid, status)), ?_, fun r pid st hr => ?_,
    fun r hz => ?_, fun r hr => ?_⟩
  · rw [settle, if_pos hq]
  · by_cases hrq : r = q
    · subst hrq
      rw [Function.update_self] at hr
      cases hr
      rw [he.store r _ _ rfl]
      exact ⟨rfl, rfl, hx⟩
    · rw [Function.update_of_ne hrq] at hr
      exact hl.entry_step h hst he hr
  · by_cases hrq : r = q
    · subst hrq
      exact .inl (by rw [Function.update_self]; simp)
    · rw [Function.update_of_ne hrq]
      refine hl.zombie_step h hst hd he hz fun st hf => hrq ?_
      cases hf
      rfl
  · rcases h.taken_step hst hd he hr with hr | ⟨p, hf, -⟩
    · have hrq : r ≠ q := by
        rintro rfl
        obtain ⟨-, -, -, -, -, hz⟩ := h.taken_top hr
        cases hrun.symm.trans hz
      rw [Function.update_of_ne hrq]
      exact hl.taken r hr
    · cases hf

/-- A child that `wait` has found has an entry, and is a child of the process. -/
theorem Sys.Lists.pending (hl : s.Lists l) (h : Family s)
    (hst : s.stack (s.thread c) = .wait p (.copyout q) :: rest) :
    l q = some ((s.proc q).pid, (s.proc q).xstate) := by
  obtain ⟨hcur, rfl, hlock, -⟩ := h.wait_top hst
  have hz : (s.proc q).state = .zombie := h.base.sees_of hst q .zombie rfl
  have hnt : ¬ s.Taken q := by
    -- two calls of `wait` do not have `wait_lock` at once
    intro ht
    obtain ⟨p', pc, hpc, hp', hholds, -⟩ := h.taken_top ht
    cases hholds.eq h.base ⟨c, hcur, hlock.mp rfl⟩
    rw [stack_of_cur hcur, hp'] at hst
    rcases hpc with rfl | rfl <;> cases hst
  obtain ⟨e, hlq⟩ := Option.ne_none_iff_exists'.mp ((hl.zombie q hz).resolve_right hnt)
  obtain ⟨-, hpid, hx⟩ := hl.entry q e.1 e.2 hlq
  rw [hlq, hpid, hx]

theorem Sys.Lists.reaped (hl : s.Lists l) (h : Family s)
    (hst : s.stack (s.thread c) = .wait p (.copyout q) :: rest)
    (hd : Does s (.wait p (.copyout q)) (code s c true (.wait p (.copyout q))))
    (he : Effects s s' c (s.thread c) rest (code s c true (.wait p (.copyout q)))) :
    ∃ l', settle l (.reaped p q (s.proc q).pid (s.proc q).xstate) = some l' ∧ s'.Lists l' := by
  have hlq := hl.pending h hst
  obtain ⟨hcur, rfl, -⟩ := h.wait_top hst
  have hself := h.base.self_stack hst hd he
  rw [thread_eq_proc.mpr hcur] at hself
  refine ⟨Function.update l q none, ?_, fun r pid st hr => ?_, fun r hz' => ?_, fun r hr => ?_⟩
  · rw [settle, if_pos hlq]
  · by_cases hrq : r = q
    · rw [hrq, Function.update_self] at hr
      cases hr
    · rw [Function.update_of_ne hrq] at hr
      exact hl.entry_step h hst he hr
  · by_cases hrq : r = q
    · rw [hrq]
      exact .inr ⟨p, .inl hself⟩
    · rw [Function.update_of_ne hrq]
      exact hl.zombie_step h hst hd he hz' nofun
  · by_cases hrq : r = q
    · rw [hrq, Function.update_self]
    · rw [Function.update_of_ne hrq]
      rcases h.taken_step hst hd he hr with hr | ⟨p', hf, -⟩
      · exact hl.taken r hr
      · cases hf
        exact absurd rfl hrq

/-- The events of a step can be entered. -/
theorem Sys.Lists.run (hl : s.Lists l) (h : Family s) (hs' : schedAct s (.run c ok) = some s') :
    ∃ l', Run.exec settle l (s.event (.run c ok)).toList = some l' ∧ s'.Lists l' := by
  rcases h.base.run_event hs' with ⟨e, rfl, hev⟩ | ⟨f, rest, hst, hev, hd, he⟩
  · rw [hev]
    exact ⟨l, rfl, hl.entry, hl.zombie, hl.taken⟩
  rw [hev]
  have hnone : (∀ q status, f ≠ .exit q status .setState) →
      (∀ p q, f = .wait p (.copyout q) → ok = false) → s'.Lists l := by
    intro hexit hwait
    refine ⟨fun q pid status => hl.entry_step h hst he,
      fun q hz => hl.zombie_step h hst hd he hz (hexit q), fun q hq => ?_⟩
    rcases h.taken_step hst hd he hq with hq | ⟨p, hf, hok⟩
    · exact hl.taken q hq
    · rw [hwait p q hf] at hok
      cases hok
  cases f with
  | exit q status pc =>
      cases pc with
      | setState =>
          obtain ⟨l', hl', hlists⟩ := hl.exited h hst hd he
          exact ⟨l', by rw [← hl']; exact Run.exec_singleton .., hlists⟩
      | _ => exact ⟨l, rfl, hnone (by simp) (by simp)⟩
  | wait p pc =>
      cases pc with
      | copyout q =>
          cases ok with
          | true =>
              obtain ⟨l', hl', hlists⟩ := hl.reaped h hst hd he
              exact ⟨l', by rw [← hl']; exact Run.exec_singleton .., hlists⟩
          | false => exact ⟨l, rfl, hnone (by simp) (by simp)⟩
      | _ => exact ⟨l, rfl, hnone (by simp) (by simp)⟩
  | _ => exact ⟨l, rfl, hnone (by simp) (by simp)⟩

end Steps

/-! ## Processes being made -/

/-- A `fork` that has not completed is making the process. -/
def Sys.BeingMade (s : Sys m n) (q : Fin n) : Prop :=
  ∃ p pc, .fork p pc ∈ s.stack (.proc p) ∧ (Frame.fork p pc).child = some q

/-- A call that is to return. -/
def Frame.Busy : Frame n → Prop
  | .exit _ _ _ | .forkret _ => False
  | _ => True

/-- A process in a call is to run again, and a `USED` process is being made. -/
structure Sys.Forks (s : Sys m n) : Prop where
  live : ∀ p f, f ∈ s.stack (.proc p) → f.Busy → (s.proc p).state.Live
  used : ∀ q, (s.proc q).state = .used → s.BeingMade q

section Forks

variable {s s' : Sys m n} {c : Fin m} {ok : Bool} {f : Frame n} {rest : List (Frame n)}
  {p q : Fin n}

/-- A `USED` process was so before, or `fork` has just marked it. -/
theorem Family.used_step (h : Family s) (hst : s.stack (s.thread c) = f :: rest)
    (he : Effects s s' c (s.thread c) rest (code s c ok f)) (hu : (s'.proc q).state = .used) :
    (s.proc q).state = .used ∨ ∃ p, f = .fork p (.setUsed q) := by
  cases h.writes_step hst he q with
  | keep hs => exact .inl (hs.symm.trans hu)
  | live _ hl =>
      rw [hu] at hl
      exact hl.elim
  | unborn p _ _ _ _ _ _ hused => exact (hused hu).imp_right fun hf => ⟨p, hf⟩
  | setParent _ _ hy => exact .inl (by rw [hy] at hu; exact hu)
  | reparent _ _ _ _ hy => exact .inl (by rw [hy] at hu; exact hu)
  | setXstate _ _ hy => exact .inl (by rw [hy] at hu; exact hu)
  | freeFields _ _ hy => exact .inl (by rw [hy] at hu; exact hu)
  | setRunnable _ _ hy => rw [hy] at hu; cases hu
  | exit _ _ hy => rw [hy] at hu; cases hu
  | freeState _ _ hy => rw [hy] at hu; cases hu

section Run

variable (h : Family s) (hf : s.Forks) (hst : s.stack (s.thread c) = f :: rest)
  (hd : Does s f (code s c ok f)) (he : Effects s s' c (s.thread c) rest (code s c ok f))

include h hf hst hd he

theorem Sys.Forks.live_step {g : Frame n} (hm : g ∈ s'.stack (.proc p)) (hg : g.Busy) :
    (s'.proc p).state.Live := by
  have hself := h.base.self_stack hst hd he
  by_cases hcur : (s.cpu c).cur = some p
  · have hown := h.base.state_of_cur hcur (by rw [← stack_of_cur hcur]; exact hst)
    have hlive : f.own.Live → (∀ status, f ≠ .exit p status .setState) →
        (s'.proc p).state.Live := fun hl => Xv6.live_step hd he (by rw [hown]; exact hl)
    rw [thread_eq_proc.mpr hcur] at hself
    rw [hself] at hm
    cases f with
    | exit q status pc =>
        obtain ⟨-, rfl, -⟩ := h.exit_top hst
        rw [List.append_nil] at hm
        cases pc with
        | reparent i => exact hlive trivial (by simp)
        | wakeupParent => exact hlive trivial (by simp)
        | zombie => cases hm
        | _ =>
            cases List.mem_singleton.mp hm
            exact hg.elim
    | yield q pc => cases pc <;> exact hlive trivial (by simp)
    | sleep q chan lk pc => cases pc <;> exact hlive trivial (by simp)
    | _ => exact hlive trivial (by simp)
  · rcases h.base.other_stack hst hd he hcur with hsame | ⟨-, hfork⟩
    · refine Xv6.live_step hd he (hf.live p g (by rw [← hsame]; exact hm) hg) fun status hex => ?_
      subst hex
      exact hcur (h.exit_top hst).1
    · rw [hfork] at hm
      cases List.mem_singleton.mp hm
      exact hg.elim

theorem Sys.Forks.used_step (hu : (s'.proc q).state = .used) : s'.BeingMade q := by
  have hself := h.base.self_stack hst hd he
  rcases h.used_step hst he hu with hu' | ⟨p, rfl⟩
  · obtain ⟨p, pc, hm, hq⟩ := hf.used q hu'
    by_cases hcur : (s.cpu c).cur = some p
    · rw [thread_eq_proc.mpr hcur] at hself
      rw [← stack_of_cur hcur, hst] at hm
      rcases List.mem_cons.mp hm with rfl | hm
      · -- the next point of `fork`
        obtain ⟨-, rfl, -⟩ := h.fork_top hst
        have hnext : ∀ pc', (forkCode s ok p pc).next = [.fork p pc'] →
            (Frame.fork p pc').child = some q → s'.BeingMade q := by
          intro pc' hpc' hq'
          refine ⟨p, pc', ?_, hq'⟩
          rw [hself]
          exact List.mem_append_left _ (by rw [code, hpc']; exact List.mem_cons_self)
        cases pc with
        | alloc np => cases ok <;> exact hnext _ rfl hq
        | copy np => cases ok <;> exact hnext _ rfl hq
        | setRunnable np =>
            cases hq
            rw [he.store q _ _ rfl] at hu
            cases hu
        | freeState np =>
            cases hq
            rw [he.store q _ _ rfl] at hu
            cases hu
        | setContext np => exact hnext _ rfl hq
        | release np => exact hnext _ rfl hq
        | acquireWait np => exact hnext _ rfl hq
        | setParent np => exact hnext _ rfl hq
        | releaseWait np => exact hnext _ rfl hq
        | reacquire np => exact hnext _ rfl hq
        | freeFields np => exact hnext _ rfl hq
        | _ => cases hq
      · exact ⟨p, pc, by rw [hself]; exact List.mem_append_right _ hm, hq⟩
    · rcases h.base.other_stack hst hd he hcur with hsame | ⟨hused, -⟩
      · exact ⟨p, pc, by rw [hsame]; exact hm, hq⟩
      · have := hf.live p _ hm trivial
        rw [hused] at this
        exact this.elim
  · obtain ⟨hcur, rfl, -⟩ := h.fork_top hst
    rw [thread_eq_proc.mpr hcur] at hself
    exact ⟨p, .alloc q, by rw [hself]; exact List.mem_cons_self, rfl⟩

end Run

end Forks

/-! ## Runs -/

/-- All that is known about parents, children and zombies. -/
structure Sys.Reaps (s : Sys m n) (l : Ledger n) : Prop where
  family : Family s
  abed : s.Abed
  forks : s.Forks
  lists : s.Lists l

section Runs

variable {s s' s₀ : Sys m n} {l : Ledger n} {a : SchedAct m n} {as : List (SchedAct m n)}
  {p q : Fin n}

/-- Calls and interrupts change nothing for the children that have been taken. -/
theorem Family.taken_quiet (h : Family s) (hq : Quiet s s') (q : Fin n) :
    s'.Taken q ↔ s.Taken q := by
  obtain ⟨-, hstack⟩ := hq
  constructor
  · rintro ⟨p, hp⟩
    rcases hstack p with hsame | ⟨c, -, ⟨-, f, hf⟩ | ⟨-, g, hg, hst⟩⟩
    · exact ⟨p, by rw [← hsame]; exact hp⟩
    · rw [hf] at hp
      cases f <;> rcases hp with hp | hp <;> cases hp
    · rw [hst] at hp
      rcases hp with hp | hp
      · rw [(List.cons.inj hp).1] at hg
        exact hg.elim
      · rw [(List.cons.inj hp).1] at hg
        exact hg.elim
  · intro hq
    obtain ⟨p, pc, hpc, hp, ⟨c', hc', hm⟩, -⟩ := h.taken_top hq
    have hsame : s'.stack (.proc p) = s.stack (.proc p) := by
      rcases hstack p with hsame | ⟨c, hcur, ⟨hnil, -⟩ | ⟨hn, -⟩⟩
      · exact hsame
      · rw [hnil] at hp
        cases hp
      · cases h.base.cpus.uniq _ _ _ (h.base.claims_of_cur hc') (h.base.claims_of_cur hcur)
        rw [h.base.locks.noff] at hn
        exact absurd hm (Spin.Held.notMem_of_count_zero hn _)
    rw [← hsame] at hp
    rcases hpc with rfl | rfl
    · exact ⟨p, .inl hp⟩
    · exact ⟨p, .inr hp⟩

theorem Sys.Forks.quiet (hf : s.Forks) (h : SchedInv s) (hq : Quiet s s') : s'.Forks := by
  obtain ⟨hproc, hstack⟩ := hq
  refine ⟨fun p g hm hg => ?_, fun q hu => ?_⟩
  · rw [hproc]
    rcases hstack p with hsame | ⟨c, hcur, ⟨hnil, -⟩ | ⟨hn, g', -, hst⟩⟩
    · exact hf.live p g (by rw [← hsame]; exact hm) hg
    · exact h.live_of_nil hcur hnil
    · -- a process that holds no lock is running
      have hown := (h.cpus.onProc c p hcur).2
      have htop := h.topHolds_of_noff hn
      rw [stack_of_cur hcur] at htop
      cases hp : s.stack (.proc p) with
      | nil => exact h.live_of_nil hcur hp
      | cons f rest =>
          rw [hp] at hown htop
          rw [hown, topOwn, Frame.own_of_holds htop]
          trivial
  · rw [hproc] at hu
    obtain ⟨p, pc, hm, hq⟩ := hf.used q hu
    refine ⟨p, pc, ?_, hq⟩
    rcases hstack p with hsame | ⟨c, hcur, ⟨hnil, -⟩ | ⟨-, g, hg, hst⟩⟩
    · rw [hsame]
      exact hm
    · rw [hnil] at hm
      cases hm
    · rw [hst]
      exact List.mem_cons_of_mem _ hm

theorem Sys.Reaps.act (h : s.Reaps l) (hs' : schedAct s a = some s') :
    ∃ l', Run.exec settle l (s.event a).toList = some l' ∧ s'.Reaps l' := by
  have hfam := h.family.act hs'
  have hquiet : (∀ c ok, a ≠ .run c ok) → s.event a = none →
      ∃ l', Run.exec settle l (s.event a).toList = some l' ∧ s'.Reaps l' := by
    intro hrun hev
    have hquiet := (h.family.base.acts hs').quiet hrun
    have hproc := hquiet.proc
    have htaken := h.family.taken_quiet hquiet
    rw [hev]
    refine ⟨l, rfl, hfam, h.family.base.abed_quiet h.abed hquiet,
      h.forks.quiet h.family.base hquiet, fun q pid st hq => ?_, fun q hz => ?_, fun q hq => ?_⟩
    · rw [hproc]
      exact h.lists.entry q pid st hq
    · rw [hproc] at hz
      exact (h.lists.zombie q hz).imp_right (htaken q).mpr
    · exact h.lists.taken q ((htaken q).mp hq)
  cases a with
  | run c ok =>
      obtain ⟨l', hl', hlists⟩ := h.lists.run h.family hs'
      refine ⟨l', hl', hfam, ?_, ?_, hlists⟩
      · rcases h.family.base.run_effects hs' with ⟨e, rfl⟩ | ⟨f, rest, hst, hd, he⟩
        · exact h.abed
        · exact h.family.base.abed_step h.family.chanSet h.abed hst hd he
      · rcases h.family.base.run_effects hs' with ⟨e, rfl⟩ | ⟨f, rest, hst, hd, he⟩
        · exact ⟨h.forks.live, h.forks.used⟩
        · exact ⟨fun p f => h.forks.live_step h.family hst hd he,
            fun q => h.forks.used_step h.family hst hd he⟩
  | call c f => exact hquiet (by simp) rfl
  | acquire c k => exact hquiet (by simp) rfl
  | release c k => exact hquiet (by simp) rfl
  | timer c => exact hquiet (by simp) rfl
  | intr c chan => exact hquiet (by simp) rfl

theorem Sys.Reaps.init (m n : Nat) (p : Fin n) : (Sys.init m n p).Reaps fun _ => none := by
  have hstate := fun q => (Sys.init_proc (m := m) p q).2.2
  refine ⟨.init m n p, fun q hq => ?_, ⟨fun q f hm hf => ?_, fun q hu => ?_⟩, nofun, fun q hz => ?_,
    fun _ _ => rfl⟩
  · rcases hstate q with hs | hs <;> cases hs.symm.trans hq
  · rw [Sys.init_stack hm] at hf
    exact hf.elim
  · rcases hstate q with hs | hs <;> cases hs.symm.trans hu
  · rcases hstate q with hs | hs <;> cases hs.symm.trans hz

theorem events_snoc (h : Run.exec schedStep s₀ as = some s) (hs' : schedStep s a = some s') :
    events s₀ (as ++ [a]) = events s₀ as ++ (s.event a).toList := by
  induction as generalizing s₀ with
  | nil =>
      cases h
      simp [events, hs']
  | cons b bs ih =>
      rw [Run.exec_cons, Option.bind_eq_some_iff] at h
      obtain ⟨s₁, h₁, h₂⟩ := h
      simp only [List.cons_append, events, h₁, ih h₂, List.append_assoc]

theorem Sys.Reaps.run {initproc : Fin n}
    (hrun : Run.exec schedStep (Sys.init m n initproc) as = some s) :
    ∃ l, Run.exec settle (fun _ => none) (events (Sys.init m n initproc) as) = some l ∧ s.Reaps l := by
  refine Run.exec_history (I := fun as s => ∃ l,
    Run.exec settle (fun _ => none) (events (Sys.init m n initproc) as) = some l ∧ s.Reaps l)
    ⟨_, rfl, .init m n initproc⟩ (fun as a s₁ s₂ h₁ ⟨l, hl, hr⟩ h₂ => ?_) hrun
  have hs₂ : schedAct s₁ a = some s₂ := by
    unfold schedStep at h₂
    split at h₂
    · exact h₂
    · cases h₂
  obtain ⟨l', hl', hr'⟩ := hr.act hs₂
  refine ⟨l', ?_, hr'⟩
  rw [events_snoc h₁ h₂, Run.exec_append, hl, Option.bind_some, hl']

theorem initproc_run (hrun : Run.exec schedStep s₀ as = some s) : s.initproc = s₀.initproc := by
  refine Run.exec_invariant (I := fun x => x.initproc = s₀.initproc) (fun x a y hx hy => ?_) rfl hrun
  unfold schedStep at hy
  split at hy
  · exact (initproc_act hy).trans hx
  · cases hy

/-- `wait` returns a child after it has copied out its status. -/
theorem event_reaped {c : Fin m} {ok : Bool} {pid status : Int}
    (h : s.event (.run c ok) = some (.reaped p q pid status)) :
    ∃ rest, s.stack (s.thread c) = .wait p (.copyout q) :: rest ∧ (s.proc q).pid = pid ∧
      (s.proc q).xstate = status := by
  simp only [Sys.event] at h
  cases hst : s.stack (s.thread c) with
  | nil =>
      rw [hst] at h
      cases h
  | cons f rest =>
      rw [hst] at h
      change f.event s ok = _ at h
      cases f with
      | exit q' st pc => cases pc <;> cases h
      | wait p' pc =>
          cases pc with
          | copyout pp =>
              cases ok with
              | true =>
                  cases h
                  exact ⟨rest, rfl, rfl, rfl⟩
              | false => cases h
          | _ => cases h
      | _ => cases h

/-- Without `wait_lock` held, no process sleeps in `wait` beside a zombie child. -/
theorem Sys.Reaps.not_sleeping (h : s.Reaps l) (hfree : s.locks.Free .wait) (hin : s.InWait p)
    (hs : (s.proc p).state = .sleeping) (hq : (s.proc q).parent = some p) :
    (s.proc q).state ≠ .zombie := by
  intro hz
  have hno : ∀ r, ¬ s.Holds .wait r := fun r ⟨c, _, hm⟩ => hfree.notMem c hm
  obtain ⟨lk, pc, rest, hst, hpc⟩ := h.abed p hs
  obtain ⟨wpc, hw⟩ := hin
  obtain ⟨b, hk, -⟩ := h.family.kin p
  rw [hst] at hk hw
  -- the process sleeps on its own channel
  have hchan : (s.proc p).chan = .proc p := by
    rcases List.mem_cons.mp hw with hw | hw
    · cases hw
    · generalize (s.proc p).chan = chan at hk
      cases hk with
      | apart hap => exact (hap _ (List.mem_cons_of_mem _ hw)).elim
      | intr hf => exact hf.elim
      | sleep => rfl
  have hnaps : s.Naps p := ⟨⟨wpc, by rw [hst]; exact hw⟩, .inl ⟨hs, hchan⟩⟩
  obtain ⟨r, status, wpc', i, hr⟩ := h.family.awake q p hq hz hnaps
  obtain ⟨b', hk', hb'⟩ := h.family.kin r
  rw [hr] at hk'
  obtain ⟨rfl, -⟩ := hk'.waking_top
  exact hno r (hb'.mp rfl)

/-- The process tree and reaping, in every state of every run.

* A process other than `init` that no `fork` is still making has a parent that is
  neither `UNUSED` nor `ZOMBIE`, up to the middle of the `freeproc` that ends it.
* A zombie has no children.
* The exits and the children returned by `wait` make a ledger: a process exits once,
  and is returned at most once after that, with the pid it had and the status it
  passed to `exit`.  It is returned to its parent.
* A `wait` that cannot copy out the status leaves the process table as it is.  The
  child is still a zombie child of the process and is still in the ledger.
* With `wait_lock` free no process sleeps in `wait` and has a zombie child. -/
theorem process_tree {initproc : Fin n} {as : List (SchedAct m n)}
    (hrun : Run.exec schedStep (Sys.init m n initproc) as = some s) :
    (∀ q, q ≠ initproc → (s.proc q).state ≠ .unused → ¬ s.BeingMade q → ¬ s.Freeing q →
      ∃ r, (s.proc q).parent = some r ∧ (s.proc r).state ≠ .unused ∧
        (s.proc r).state ≠ .zombie) ∧
    (∀ q r, (s.proc q).state = .zombie → (s.proc r).parent ≠ some q) ∧
    (∃ l, Run.exec settle (fun _ => none) (events (Sys.init m n initproc) as) = some l ∧
      (∀ q, (s.proc q).state = .zombie → ¬ s.Taken q →
        l q = some ((s.proc q).pid, (s.proc q).xstate)) ∧
      (∀ a s' p q pid status, schedStep s a = some s' →
        s.event a = some (.reaped p q pid status) →
        (s.proc q).parent = some p ∧ l q = some (pid, status)) ∧
      ∀ c p q rest s', s.stack (s.thread c) = .wait p (.copyout q) :: rest →
        schedStep s (.run c false) = some s' →
        s'.proc = s.proc ∧ (s.proc q).state = .zombie ∧ (s.proc q).parent = some p ∧
          l q = some ((s.proc q).pid, (s.proc q).xstate) ∧ s.event (.run c false) = none) ∧
    (s.locks.Free .wait → ∀ p q, s.InWait p → (s.proc p).state = .sleeping →
      (s.proc q).parent = some p → (s.proc q).state ≠ .zombie) := by
  obtain ⟨l, hl, h⟩ := Sys.Reaps.run hrun
  have hinit : s.initproc = initproc := initproc_run hrun
  refine ⟨fun q hq hu hmade hfree => ?_, fun q r hz hr => ?_,
    ⟨l, hl, fun q hz ht => ?_, fun a s' p q pid status hs' hev => ?_,
      fun c p q rest s' hst hs' => ?_⟩, fun hfree p q => h.not_sleeping hfree⟩
  · have hborn : (s.proc q).state.Born := by
      cases hs : (s.proc q).state with
      | unused => exact absurd hs hu
      | used => exact absurd (h.forks.used q hs) hmade
      | _ => trivial
    have hsome := (h.family.parent q (by rw [hinit]; exact hq) hborn).resolve_right hfree
    obtain ⟨r, hr⟩ := Option.ne_none_iff_exists'.mp hsome
    have hlive := h.family.alive q r hr
    refine ⟨r, hr, fun hx => ?_, hlive.ne_zombie⟩
    rw [hx] at hlive
    exact hlive
  · exact (h.family.alive r q hr).ne_zombie hz
  · obtain ⟨e, he⟩ := Option.ne_none_iff_exists'.mp ((h.lists.zombie q hz).resolve_right ht)
    obtain ⟨-, hpid, hx⟩ := h.lists.entry q e.1 e.2 he
    rw [he, hpid, hx]
  · cases a with
    | run c ok =>
        obtain ⟨rest, hst, rfl, rfl⟩ := event_reaped hev
        obtain ⟨-, -, -, hk⟩ := h.family.wait_top hst
        exact ⟨hk, h.lists.pending h.family hst⟩
    | _ => cases hev
  · obtain ⟨-, -, -, hk⟩ := h.family.wait_top hst
    refine ⟨?_, h.family.base.sees_of hst q .zombie rfl, hk, h.lists.pending h.family hst, ?_⟩
    · simp only [schedStep, schedAct, hst] at hs'
      split at hs' <;> cases hs'
      rfl
    · simp [Sys.event, hst, Frame.event]

end Runs

/-- The first process forks and sleeps in `wait`, the child exits, and `wait` finds
it. -/
def childExits : List (SchedAct 1 2) :=
  List.replicate 5 (.run 0 true) ++ .call 0 .fork :: List.replicate 20 (.run 0 true) ++
    .call 0 .wait :: List.replicate 23 (.run 0 true) ++
    .call 0 (.exit 7) :: List.replicate 29 (.run 0 true)

theorem process_tree_childExits :
    ∃ s, Run.exec schedStep (Sys.init 1 2 0) childExits = some s ∧
      events (Sys.init 1 2 0) childExits = [.exited 1 2 7] ∧
      s.event (.run 0 true) = some (.reaped 0 1 2 7) ∧ (s.proc 1).parent = some 0 := by
  have hrun : ∃ s, Run.exec schedStep (Sys.init 1 2 0) childExits = some s ∧
      (s.event (.run 0 true) = some (.reaped 0 1 2 7) ∧ (schedStep s (.run 0 true)).isSome) :=
    Run.exists_exec_of_check (by decide +kernel)
  obtain ⟨s, hs, hev, hstep⟩ := hrun
  obtain ⟨s', hs'⟩ := Option.isSome_iff_exists.mp hstep
  obtain ⟨-, -, ⟨l, -, -, hreap, -⟩, -⟩ := process_tree hs
  exact ⟨s, hs, by decide +kernel, hev, (hreap _ s' 0 1 2 7 hs' hev).1⟩

end Xv6
