import Xv6.Vm.Calls

/-!
# A pipe that cannot be made

`sys_pipe` gives up at seven places, with some of two files, two descriptors and a page in
hand.  It drops what it has through the ordinary `fileclose`, and then the descriptors, the
file table and the free pages are as they were.  The specifications of the parts say what
remains; what is added here is which entries of the file table a part can touch, and how the
free pages change with the pages of pipes.
-/

namespace Xv6.Vm

open Hoare FreeList RefCount

variable {n : Nat} {g : Layout} {safe : Fin n → Int → Prop} {rest pipes pipes' : List Nat}
variable {hand fs fs' : List (Fin NFILE)} {s s' : Sys n} {p : Fin n} {f : Fin NFILE}
  {E : Panic → Prop}

/-! ## What the parts touch -/

/-- Only the listed entries of the file table can have changed. -/
def FilesApart (fs : List (Fin NFILE)) (s s' : Sys n) : Prop := ∀ x ∉ fs, s'.file x = s.file x

theorem FilesApart.setFile (s : Sys n) (f : Fin NFILE) (x : File) :
    FilesApart [f] s (s.setFile f x) := by
  intro y hy
  exact Function.update_of_ne (fun h => hy (List.mem_singleton.mpr h)) _ _

theorem FilesApart.trans {s'' : Sys n} (h : FilesApart fs s s') (h' : FilesApart fs' s' s'')
    (hsub : fs' ⊆ fs) : FilesApart fs s s'' :=
  fun x hx => (h' x fun hmem => hx (hsub hmem)).trans (h x hx)

theorem FilesApart.mono (h : FilesApart fs s s') (hsub : fs ⊆ fs') :
    FilesApart fs' s s' := fun x hx => h x fun hmem => hx (hsub hmem)

theorem onKern_apart {α : Type} (x : Kern α) :
    wp (onKern x) (fun _ s' => s'.file = s.file) (fun _ => True) s := by
  rw [wp_onKern]
  cases hx : x s.kern with
  | error e => exact (wp_error hx).mpr trivial
  | ok r => exact (wp_ok hx).mpr rfl

theorem fileclose_apart (f : Fin NFILE) :
    wp (fileclose g f) (fun _ s' => FilesApart [f] s s') (fun _ => True) s := by
  rw [fileclose, wp_bind, wp_get]
  simp only
  split
  · trivial
  · split
    · exact .setFile s f _
    · rw [wp_bind, wp_modifyFile]
      cases (s.file f).type with
      | pipe =>
          refine (onKern_apart _).mono fun _ s' hs' x hx => ?_
          rw [hs']
          exact FilesApart.setFile s f _ x hx
      | none | inode | device => exact .setFile s f _

theorem filealloc_apart :
    wp filealloc (fun r s' => match r with
      | none => s' = s
      | some f => (s.file f).ref = 0 ∧ FilesApart [f] s s') (fun _ => True) s := by
  rw [filealloc, wp_bind, wp_get]
  cases hf : (List.finRange NFILE).find? fun f => (s.file f).ref = 0 with
  | none => rfl
  | some f => exact ⟨by simpa using List.find?_some hf, .setFile s f _⟩

/-- Entries of the file table that are in use are not touched. -/
def KeepsFiles (s s' : Sys n) : Prop := ∀ x, (s.file x).ref ≠ 0 → s'.file x = s.file x

theorem FilesApart.keeps (h : FilesApart fs s s') (h0 : ∀ f ∈ fs, (s.file f).ref = 0) :
    KeepsFiles s s' :=
  fun x hx => h x fun hmem => hx (h0 x hmem)

theorem pipealloc_apart :
    wp (pipealloc g) (fun r s' => match r with
      | none => KeepsFiles s s'
      | some (rf, wf) => (∀ f ∈ [rf, wf], (s.file f).ref = 0) ∧ FilesApart [rf, wf] s s')
      (fun _ => True) s := by
  rw [pipealloc, wp_bind]
  refine filealloc_apart.mono ?_
  rintro (_ | f0) s₁ h₁
  · obtain rfl : s₁ = s := h₁
    exact fun _ _ => rfl
  obtain ⟨h0, ha₁⟩ := h₁
  simp only
  rw [wp_bind]
  refine filealloc_apart.mono ?_
  rintro (_ | f1) s₂ h₂
  · obtain rfl : s₂ = s₁ := h₂
    simp only
    rw [wp_bind]
    refine (fileclose_apart f0).mono fun _ s₃ ha₃ => ?_
    exact (ha₁.trans ha₃ (List.Subset.refl _)).keeps (by simpa using h0)
  obtain ⟨h1, ha₂⟩ := h₂
  have h1' : (s.file f1).ref = 0 := by
    by_cases hne : f1 = f0
    · rw [hne]
      exact h0
    · rw [← ha₁ f1 (by simpa using hne)]
      exact h1
  have hfree : ∀ f ∈ [f0, f1], (s.file f).ref = 0 := by simp [h0, h1']
  have ha : FilesApart [f0, f1] s s₂ := by
    have hfirst : FilesApart [f0, f1] s s₁ := ha₁.mono (by simp)
    have hsecond : FilesApart [f0, f1] s₁ s₂ := ha₂.mono (by simp)
    exact hfirst.trans hsecond (List.Subset.refl _)
  simp only
  rw [wp_bind]
  refine (onKern_apart kalloc).mono fun pi s₃ hs₃ => ?_
  have ha₃ : FilesApart [f0, f1] s s₃ := fun x hx => (congrFun hs₃ x).trans (ha x hx)
  split
  · rw [wp_bind]
    refine (fileclose_apart f0).mono fun _ s₄ ha₄ => ?_
    rw [wp_bind]
    refine (fileclose_apart f1).mono fun _ s₅ ha₅ => ?_
    exact ((ha₃.trans ha₄ (by simp)).trans ha₅ (by simp)).keeps hfree
  · rw [wp_bind]
    refine (onKern_apart _).mono fun _ s₄ hs₄ => ?_
    refine ⟨hfree, ?_⟩
    have ha₄ : FilesApart [f0, f1] s s₄ := fun x hx => (congrFun hs₄ x).trans (ha₃ x hx)
    exact (ha₄.trans (.setFile _ f0 _) (by simp)).trans (.setFile _ f1 _) (by simp)

/-! ## The free pages -/

/-- The pages of pipes and the free pages are together what they were. -/
def PipesTurn (pipes pipes' : List Nat) (s s' : Sys n) : Prop :=
  (pipes' ++ s'.kern.frees).Perm (pipes ++ s.kern.frees)

theorem UserWrite.frees {k k' : Machine} {pt np : Nat} (h : UserWrite k k' pt np) :
    k'.frees.Perm k.frees := (List.perm_append_left_iff _).mp h.perm

theorem copyoutFds_frees {fdarray fd0 fd1 : Nat} (h : Inv g safe rest pipes hand s)
    (hp : (s.proc p).state ≠ .unused) :
    wp (copyoutFds (s.proc p).pagetable fdarray fd0 fd1)
      (fun _ k => Inv g safe rest pipes hand (s.setKern k) ∧ k.frees.Perm s.kern.frees) E
      s.kern := by
  have hone : ∀ {t : Sys n} {va : Nat} {src : List UInt8}, Inv g safe rest pipes hand t →
      (t.proc p).state ≠ .unused → wp (copyout (t.proc p).pagetable va src)
        (fun _ k => Inv g safe rest pipes hand (t.setKern k) ∧ k.frees.Perm t.kern.frees) E t.kern := by
    intro t va src ht htp
    have hpt := ((ht.procs p).live htp).2
    exact (copyout_spec ((ht.procs p).space hpt) (noUser_framePte _) noUser_trampPte
      (ht.owned_space hpt)).mono fun _ _ hw => ⟨ht.userWrite htp hw, hw.frees⟩
  rw [copyoutFds, wp_bind]
  refine (hone h hp).mono fun r k₁ h₁ => ?_
  split
  · exact h₁
  · exact (hone h₁.1 hp).mono fun _ k₂ h₂ => ⟨h₂.1, h₂.2.trans h₁.2⟩

/-- `fileclose` of a reference in hand. -/
theorem fileclose_turns (h : Inv g safe rest pipes (f :: hand) s) :
    wp (fileclose g f) (fun _ s' => ∃ pipes', Inv g safe rest pipes' hand s' ∧
      s'.proc = s.proc ∧ PipesTurn pipes pipes' s s' ∧ FilesApart [f] s s') E s := by
  have hf := h.files
  rw [held_cons] at hf
  refine ((fileclose_spec hf h.owned_pipes).and_returns (fileclose_apart f)).mono ?_
  rintro _ s' ⟨⟨hfo, pipes', ht, hf'⟩, ha⟩
  exact ⟨pipes', h.setFiles hfo ht hf', hfo.proc, ht.perm, ha⟩

/-! ## `sys_pipe` -/

/-- The descriptors, the numbers of references and the types of the entries of the file table,
and the set of free pages are as they were. -/
structure AsBefore (s s' : Sys n) : Prop where
  ofile : ∀ q, (s'.proc q).ofile = (s.proc q).ofile
  ref : ∀ f, (s'.file f).ref = (s.file f).ref
  type : ∀ f, (s'.file f).type = (s.file f).type
  frees : s'.kern.frees.Perm s.kern.frees

/-- With the descriptors as they were and the entries in use not touched, the file table
has the same ends of pipes, so the pages of pipes are the same. -/
theorem undone_of_keeps (h : Inv g safe rest pipes [] s) (h' : Inv g safe rest pipes' [] s')
    (hfd : ∀ q, (s'.proc q).ofile = (s.proc q).ofile) (hk : KeepsFiles s s')
    (ht : PipesTurn pipes pipes' s s') : AsBefore s s' := by
  have hslots : slots s'.proc = slots s.proc := funext fun x => congrFun (hfd x.1) x.2
  have hfiles := h.files
  have hfiles' := h'.files
  rw [hslots] at hfiles'
  have hfile : ∀ f, (s.file f).ref = 0 ∧ (s.file f).type = .none ∧ (s'.file f).type = .none ∨
      s'.file f = s.file f := by
    intro f
    by_cases h0 : (s.file f).ref = 0
    · have hr := (hfiles.ref f).symm.trans h0
      exact .inl ⟨h0, hfiles.closed f hr, hfiles'.closed f hr⟩
    · exact .inr (hk f h0)
  have hend : ∀ pi w f, IsEnd s'.file pi w f ↔ IsEnd s.file pi w f := by
    intro pi w f
    rcases hfile f with ⟨-, h1, h2⟩ | he
    · simp [IsEnd, h1, h2]
    · rw [IsEnd, he, IsEnd]
  have hpipes : pipes'.Perm pipes := by
    refine (List.perm_ext_iff_of_nodup h'.owned.right.left.nodup_left
      h.owned.right.left.nodup_left).mpr fun pi => ?_
    rw [hfiles'.pipe, hfiles.pipe]
    simp only [hend]
  refine ⟨hfd, fun f => ?_, fun f => ?_, ?_⟩
  · rw [hfiles'.ref, hfiles.ref]
  · rcases hfile f with ⟨-, h1, h2⟩ | he
    · rw [h1, h2]
    · rw [he]
  · exact (List.perm_append_left_iff pipes).mp ((hpipes.symm.append_right _).trans ht)

/-- Both ends of the pipe are closed again. -/
theorem closeEnds_undone {s₁ : Sys n} {rf wf : Fin NFILE} (h : Inv g safe rest pipes [] s)
    (h₁ : Inv g safe rest pipes' [rf, wf] s₁) (hfd : ∀ q, (s₁.proc q).ofile = (s.proc q).ofile)
    (hfree : ∀ f ∈ [rf, wf], (s.file f).ref = 0) (ha : FilesApart [rf, wf] s s₁)
    (ht : PipesTurn pipes pipes' s s₁) :
    wp (fileclose g rf >>= fun _ => fileclose g wf >>= fun _ => pure (-1 : Int))
      (fun _ s' => (∃ pipes, Inv g safe rest pipes [] s') ∧ AsBefore s s') E s₁ := by
  rw [wp_bind]
  refine (fileclose_turns h₁).mono ?_
  rintro _ s₂ ⟨pipes₂, h₂, hp₂, ht₂, ha₂⟩
  rw [wp_bind]
  refine (fileclose_turns h₂).mono ?_
  rintro _ s₃ ⟨pipes₃, h₃, hp₃, ht₃, ha₃⟩
  refine ⟨⟨pipes₃, h₃⟩, undone_of_keeps h h₃ (fun q => ?_) ?_ ((ht₃.trans ht₂).trans ht)⟩
  · rw [hp₃, hp₂]
    exact hfd q
  · exact ((ha.trans ha₂ (by simp)).trans ha₃ (by simp)).keeps hfree

/-- `sys_pipe` keeps the system in order, and a call that fails leaves what it found. -/
theorem sys_pipe_spec (h : Inv g safe rest pipes [] s) (h1 : (s.proc p).state ≠ .unused)
    (h2 : (s.proc p).state ≠ .zombie) (fdarray : Nat) :
    wp (sys_pipe g p fdarray) (fun r s' => (∃ pipes, Inv g safe rest pipes [] s') ∧
      (r = -1 → AsBefore s s')) E s := by
  rw [sys_pipe, wp_bind]
  refine ((pipealloc_spec h.files h.owned_pipes).and_returns pipealloc_apart).mono ?_
  rintro r s₁ ⟨⟨hfo, pipes₁, ht₁, hr⟩, ha⟩
  have hfd₁ : ∀ q, (s₁.proc q).ofile = (s.proc q).ofile := fun q => by rw [hfo.proc]
  cases r with
  | none =>
      have h₁ := h.setFiles hfo ht₁ hr
      exact ⟨⟨pipes₁, h₁⟩, fun _ => undone_of_keeps h h₁ hfd₁ ha ht₁.perm⟩
  | some r =>
      obtain ⟨rf, wf⟩ := r
      obtain ⟨hfree, ha⟩ := ha
      rw [← hfo.proc] at h1 h2
      have h₁ : Inv g safe rest pipes₁ [rf, wf] s₁ := by
        refine h.setFiles hfo ht₁ ?_
        rw [held_cons, held_cons]
        exact hr
      simp only
      rw [wp_bind]
      refine (fdalloc_spec h₁ h1 h2).mono ?_
      rintro x s₂ (⟨rfl, rfl⟩ | ⟨fd0, rfl, hfd0, rfl, h₂⟩)
      · exact (closeEnds_undone h h₁ hfd₁ hfree ha ht₁.perm).mono fun _ _ hu => ⟨hu.1, fun _ => hu.2⟩
      simp only
      rw [wp_bind]
      refine (fdalloc_spec h₂ (by simpa using h1) (by simpa using h2)).mono ?_
      rintro x s₃ (⟨rfl, rfl⟩ | ⟨fd1, rfl, hfd1, rfl, h₃⟩)
      · simp only
        rw [wp_bind, wp_modifyProc]
        refine (closeEnds_undone h (h₂.takeFd (by simp [Proc.setOfile])) (fun q => ?_) hfree ha
          ht₁.perm).mono fun _ _ hu => ⟨hu.1, fun _ => hu.2⟩
        rw [← hfd₁ q]
        by_cases hq : q = p
        · subst hq
          simp [Sys.setProc, Proc.setOfile, ← hfd0]
        · simp [Sys.setProc, hq]
      simp only
      rw [wp_bind, wp_get, wp_bind, wp_onKern]
      refine (copyoutFds_frees h₃ (by simpa using h1)).mono ?_
      rintro r k₄ ⟨h₄, hfrees⟩
      have hne : fd0 ≠ fd1 := by
        rintro rfl
        simp [Proc.setOfile] at hfd1
      split
      · rw [wp_bind, wp_modifyProc, wp_bind, wp_modifyProc]
        have h₅ := h₄.takeFd (show (Sys.proc _ p).ofile fd0 = some rf by
          simp [Proc.setOfile, hne])
        have h₆ := h₅.takeFd (show (Sys.proc _ p).ofile fd1 = some wf by
          simp [Proc.setOfile, Ne.symm hne])
        refine (closeEnds_undone h (h₆.perm_hand (.swap rf wf [])) (fun q => ?_) hfree ha
          ?_).mono fun _ _ hu => ⟨hu.1, fun _ => hu.2⟩
        · have hfd1' : (s₁.proc p).ofile fd1 = none := by
            simpa [Proc.setOfile, Ne.symm hne] using hfd1
          rw [← hfd₁ q]
          by_cases hq : q = p
          · subst hq
            funext fd
            simp only [Sys.setProc, Sys.setKern, Proc.setOfile, Function.update_self]
            by_cases hfd : fd = fd1
            · subst hfd
              rw [Function.update_self, hfd1']
            · rw [Function.update_of_ne hfd]
              by_cases hfd' : fd = fd0
              · subst hfd'
                rw [Function.update_self, hfd0]
              · rw [Function.update_of_ne hfd', Function.update_of_ne hfd, Function.update_of_ne hfd']
          · simp [Sys.setProc, Sys.setKern, hq]
        · exact (hfrees.append_left _).trans ht₁.perm
      · exact ⟨⟨pipes₁, h₄⟩, fun hr => by cases hr⟩

end Xv6.Vm
