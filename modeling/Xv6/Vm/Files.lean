import Xv6.Lib.RefCount
import Xv6.Vm.Procs
import Xv6.Vm.Walk

/-!
# Open files and pipes

The file table for given numbers of references (`Files`).  An entry without
references has no type, and every pipe has one page, which says which of its two
ends are open; an open end is one entry of the table.  `filealloc`, `filedup`,
`fileclose` and `pipealloc` add or drop references and keep this, and a pipe is
freed when its last end is closed.
-/

namespace Xv6.Vm

open Hoare FreeList RefCount

variable {n : Nat} {g : Layout} {s : Sys n} {k : Machine} {A : List Nat} {E : Panic → Prop}
variable {refs : Fin NFILE → Nat} {pipes : List Nat} {file : Fin NFILE → File} {m m' : Nat → Page}
variable {f f' : Fin NFILE} {pi pa : Nat} {w : Bool} {Q : Unit → Sys n → Prop} {x : File}

/-! ## The file table -/

/-- The offset of the field of a pipe that says whether an end is open. -/
def pipeOpen (w : Bool) : Nat := if w then pipeWriteopen else pipeReadopen

/-- The entry `f` is an end of the pipe `pi`. -/
def IsEnd (file : Fin NFILE → File) (pi : Nat) (w : Bool) (f : Fin NFILE) : Prop :=
  (file f).type = .pipe ∧ (file f).pipe = pi ∧ (file f).writable = w

/-- The file table with the given numbers of references and the pages of its
pipes. -/
structure Files (refs : Fin NFILE → Nat) (pipes : List Nat) (file : Fin NFILE → File)
    (m : Nat → Page) : Prop where
  ref : ∀ f, (file f).ref = refs f
  closed : ∀ f, refs f = 0 → (file f).type = .none
  pipe : ∀ pi, pi ∈ pipes ↔ ∃ w f, IsEnd file pi w f
  one : ∀ pi w f f', IsEnd file pi w f → IsEnd file pi w f' → f = f'
  opened : ∀ pi ∈ pipes, ∀ w, (m pi).getLe (pipeOpen w) 4 ≠ 0 ↔ ∃ f, IsEnd file pi w f

theorem Files.congr (h : Files refs pipes file m) (hm : ∀ a ∈ pipes, m' a = m a) :
    Files refs pipes file m' where
  ref := h.ref
  closed := h.closed
  pipe := h.pipe
  one := h.one
  opened := fun pi hpi w => by rw [hm pi hpi]; exact h.opened pi hpi w

/-- A new value of `ref` for one entry. -/
theorem Files.setRef (h : Files refs pipes file m) {r : Nat} (hr : r ≠ 0)
    {refs' : Fin NFILE → Nat} (h' : ∀ x, refs' x = if x = f then r else refs x) :
    Files refs' pipes (Function.update file f { file f with ref := r }) m := by
  have hsame : ∀ x, (Function.update file f { file f with ref := r } x).type = (file x).type ∧
      (Function.update file f { file f with ref := r } x).pipe = (file x).pipe ∧
      (Function.update file f { file f with ref := r } x).writable = (file x).writable := by
    intro x
    by_cases hx : x = f
    · subst hx
      simp
    · simp [Function.update_of_ne hx]
  have hend : ∀ pi w x, IsEnd (Function.update file f { file f with ref := r }) pi w x ↔
      IsEnd file pi w x := by
    intro pi w x
    obtain ⟨h1, h2, h3⟩ := hsame x
    rw [IsEnd, IsEnd, h1, h2, h3]
  refine ⟨fun x => ?_, fun x h0 => ?_, ?_, ?_, ?_⟩
  · rw [h' x]
    by_cases hx : x = f
    · subst hx
      simp
    · rw [Function.update_of_ne hx, if_neg hx]
      exact h.ref x
  · rw [(hsame x).1]
    rw [h' x] at h0
    by_cases hx : x = f
    · rw [if_pos hx] at h0
      exact absurd h0 hr
    · rw [if_neg hx] at h0
      exact h.closed x h0
  · simp only [hend]
    exact h.pipe
  · simp only [hend]
    exact h.one
  · simp only [hend]
    exact h.opened

/-! ## Code that changes files only -/

/-- The processes are as before. -/
structure FilesOnly (s s' : Sys n) : Prop where
  proc : s'.proc = s.proc
  nextpid : s'.nextpid = s.nextpid
  initproc : s'.initproc = s.initproc

theorem FilesOnly.refl (s : Sys n) : FilesOnly s s := ⟨rfl, rfl, rfl⟩

theorem FilesOnly.trans {s₁ s₂ s₃ : Sys n} (h : FilesOnly s₁ s₂) (h' : FilesOnly s₂ s₃) :
    FilesOnly s₁ s₃ :=
  ⟨h'.proc.trans h.proc, h'.nextpid.trans h.nextpid, h'.initproc.trans h.initproc⟩

@[simp] theorem wp_onKern {α : Type} {x : Kern α} {Q : α → Sys n → Prop} :
    wp (onKern x) Q E s ↔ wp x (fun a k => Q a (s.setKern k)) E s.kern := wp_zoom

@[simp] theorem wp_modifyFile {u : File → File} :
    wp (modifyFile f u) Q E s ↔ Q () (s.setFile f (u (s.file f))) := Iff.rfl

@[simp] theorem wp_modifyProc {p : Fin n} {u : Proc n → Proc n} :
    wp (modifyProc p u) Q E s ↔ Q () (s.setProc p (u (s.proc p))) := Iff.rfl

@[simp] theorem wp_storeField {Q : Unit → Machine → Prop} {off w v : Nat} :
    wp (storeField pa off w v) Q E k ↔ Q () (k.set pa ((k.mem pa).setLe off w v)) := Iff.rfl

@[simp] theorem wp_loadField {Q : Nat → Machine → Prop} {off w : Nat} :
    wp (loadField pa off w) Q E k ↔ Q ((k.mem pa).getLe off w) k := Iff.rfl

theorem filealloc_spec (h : Files refs pipes s.file m) :
    wp filealloc (fun r s' => r = none ∧ s' = s ∨
      ∃ f, r = some f ∧ refs f = 0 ∧ s' = s.setFile f { s.file f with ref := 1 } ∧
        Files (plus refs f) pipes s'.file m) E s := by
  rw [filealloc, wp_bind, wp_get]
  cases hf : (List.finRange NFILE).find? fun f => (s.file f).ref = 0 with
  | none => exact .inl ⟨rfl, rfl⟩
  | some f =>
      have h0 : refs f = 0 := by
        have hp := List.find?_some hf
        rw [← h.ref f]
        simpa using hp
      refine .inr ⟨f, rfl, h0, rfl, h.setRef (by decide) fun x => ?_⟩
      by_cases hx : x = f
      · rw [hx, plus_self, if_pos rfl, h0]
      · rw [plus_of_ne hx, if_neg hx]

theorem filedup_spec (h : Files refs pipes s.file m) (hf : 0 < refs f) :
    wp (filedup f) (fun _ s' => s'.kern = s.kern ∧ FilesOnly s s' ∧
      Files (plus refs f) pipes s'.file m) E s := by
  rw [filedup, wp_bind, wp_get, h.ref f, if_neg (by omega)]
  refine ⟨rfl, ⟨rfl, rfl, rfl⟩, h.setRef (by omega) fun x => ?_⟩
  by_cases hx : x = f
  · rw [hx, plus_self, if_pos rfl, h.ref f]
  · rw [plus_of_ne hx, if_neg hx]

/-! ## Closing a file -/

theorem pipeOpen_le (w : Bool) : pipeOpen w + 4 ≤ PGSIZE := by
  cases w <;> decide

theorem pipeOpen_disjoint (w : Bool) :
    pipeOpen (!w) + 4 ≤ pipeOpen w ∨ pipeOpen w + 4 ≤ pipeOpen (!w) := by
  cases w <;> decide

/-- The last end to be closed frees the page. -/
theorem pipeclose_spec (ho : Owned g.IsPage k (pi :: A)) :
    wp (pipeclose g pi w) (fun _ k' =>
      (k.mem pi).getLe (pipeOpen (!w)) 4 = 0 ∧ Turns k k' [pi] [] ∨
        (k.mem pi).getLe (pipeOpen (!w)) 4 ≠ 0 ∧ Turns k k' [pi] [pi] ∧
          (k'.mem pi).getLe (pipeOpen w) 4 = 0 ∧
          (k'.mem pi).getLe (pipeOpen (!w)) 4 = (k.mem pi).getLe (pipeOpen (!w)) 4) E k := by
  have hw : (if w then pipeWriteopen else pipeReadopen) = pipeOpen w := rfl
  rw [pipeclose, hw]
  simp only [wp_bind, wp_storeField, wp_loadField]
  generalize hpg : (k.mem pi).setLe (pipeOpen w) 4 0 = pg
  have hmem : (k.set pi pg).mem pi = pg := Function.update_self _ _ _
  have h1 : pg.getLe (pipeOpen w) 4 = 0 := by
    rw [← hpg]
    exact Bytes.Region.getLe_setLe _ _ (pipeOpen_le w)
  have h2 : pg.getLe (pipeOpen (!w)) 4 = (k.mem pi).getLe (pipeOpen (!w)) 4 := by
    rw [← hpg]
    exact Bytes.Region.getLe_setLe_of_disjoint _ _ (pipeOpen_disjoint w)
  have ht : Turns k (k.set pi pg) [pi] [pi] :=
    (Owned.left (A := [pi]) ho).write List.mem_cons_self pg
  have hc : (pg.getLe pipeReadopen 4 = 0 ∧ pg.getLe pipeWriteopen 4 = 0) ↔
      pg.getLe (pipeOpen (!w)) 4 = 0 := by
    cases w with
    | false => exact ⟨fun h => h.2, fun h => ⟨h1, h⟩⟩
    | true => exact ⟨fun h => h.1, fun h => ⟨h, h1⟩⟩
  rw [hmem]
  by_cases h0 : pg.getLe (pipeOpen (!w)) 4 = 0
  · rw [if_pos (hc.mpr h0)]
    refine (kfree_spec (ho.turns (ht.frame A))).mono ?_
    intro _ k' hk'
    exact .inl ⟨h2 ▸ h0, ht.trans hk'⟩
  · rw [if_neg (fun h => h0 (hc.mp h))]
    refine .inr ⟨h2 ▸ h0, ht, ?_, ?_⟩ <;> rw [hmem] <;> assumption

/-- The ends after an entry is closed. -/
theorem isEnd_close {pi' : Nat} {w' : Bool} (hx : x.type = .none) :
    IsEnd (Function.update file f x) pi' w' f' ↔ IsEnd file pi' w' f' ∧ f' ≠ f := by
  by_cases hf : f' = f
  · subst hf
    simp [IsEnd, hx]
  · simp [IsEnd, hf]

section

variable (h : Files (plus refs f) pipes file m)

include h

theorem ref_close (hx : x.ref = 0) (hr : refs f = 0) (f' : Fin NFILE) :
    (Function.update file f x f').ref = refs f' := by
  by_cases hf : f' = f
  · subst hf
    simp [hx, hr]
  · rw [Function.update_of_ne hf, h.ref f', plus_of_ne hf]

theorem closed_close (hx : x.type = .none) (f' : Fin NFILE) (h0 : refs f' = 0) :
    (Function.update file f x f').type = .none := by
  by_cases hf : f' = f
  · subst hf
    simp [hx]
  · rw [Function.update_of_ne hf]
    exact h.closed f' (by rw [plus_of_ne hf, h0])

/-- An entry that is not a pipe is closed. -/
theorem Files.close (hr : refs f = 0) (hp : (file f).type ≠ .pipe) (hx : x.type = .none)
    (hx0 : x.ref = 0) :
    Files refs pipes (Function.update file f x) m := by
  have hend : ∀ pi w x', IsEnd (Function.update file f x) pi w x' ↔ IsEnd file pi w x' := by
    intro pi w x'
    rw [isEnd_close hx]
    refine ⟨fun he => he.1, fun he => ⟨he, ?_⟩⟩
    rintro rfl
    exact hp he.1
  refine ⟨ref_close h hx0 hr, closed_close h hx, ?_, ?_, ?_⟩
  · simp only [hend]
    exact h.pipe
  · simp only [hend]
    exact h.one
  · simp only [hend]
    exact h.opened

/-- One end of a pipe is closed and the other is still open. -/
theorem Files.closeEnd (hr : refs f = 0) (hf : IsEnd file pi w f) (hx : x.type = .none)
    (hx0 : x.ref = 0) (hm : ∀ a ∈ pipes, a ≠ pi → m' a = m a)
    (h0 : (m pi).getLe (pipeOpen (!w)) 4 ≠ 0) (h1 : (m' pi).getLe (pipeOpen w) 4 = 0)
    (h2 : (m' pi).getLe (pipeOpen (!w)) 4 = (m pi).getLe (pipeOpen (!w)) 4) :
    Files refs pipes (Function.update file f x) m' := by
  have hpi : pi ∈ pipes := (h.pipe pi).mpr ⟨w, f, hf⟩
  obtain ⟨f₂, hf₂⟩ := (h.opened pi hpi (!w)).mp h0
  have hne : ∀ {pi' w' f'}, IsEnd file pi' w' f' → ¬ (pi' = pi ∧ w' = w) → f' ≠ f := by
    rintro pi' w' f' hf' hn rfl
    exact hn ⟨hf'.2.1.symm.trans hf.2.1, hf'.2.2.symm.trans hf.2.2⟩
  refine ⟨ref_close h hx0 hr, closed_close h hx, fun pi' => ?_, ?_, fun pi' hpi' w' => ?_⟩
  · rw [h.pipe pi']
    simp only [isEnd_close hx]
    constructor
    · rintro ⟨w', f', hf'⟩
      by_cases hc : f' = f
      · subst hc
        have he : pi' = pi := hf'.2.1.symm.trans hf.2.1
        exact ⟨!w, f₂, he ▸ hf₂, hne hf₂ (by simp)⟩
      · exact ⟨w', f', hf', hc⟩
    · rintro ⟨w', f', hf'⟩
      exact ⟨w', f', hf'.1⟩
  · simp only [isEnd_close hx]
    exact fun pi' w' f₁ f₂ h₁ h₂ => h.one pi' w' f₁ f₂ h₁.1 h₂.1
  · simp only [isEnd_close hx]
    by_cases hc : pi' = pi
    · subst hc
      by_cases hw : w' = w
      · subst hw
        rw [h1]
        refine ⟨fun hf => absurd rfl hf, ?_⟩
        rintro ⟨f', hf', hn⟩
        exact absurd (h.one _ _ _ _ hf' hf) hn
      · have hw' : w' = !w := by cases w <;> cases w' <;> simp_all
        subst hw'
        rw [h2]
        exact ⟨fun _ => ⟨f₂, hf₂, hne hf₂ (by simp)⟩, fun _ => h0⟩
    · rw [hm pi' hpi' hc, h.opened pi' hpi' w']
      constructor
      · rintro ⟨f', hf'⟩
        exact ⟨f', hf', hne hf' (by simp [hc])⟩
      · rintro ⟨f', hf'⟩
        exact ⟨f', hf'.1⟩

/-- The last end of a pipe is closed. -/
theorem Files.closeLast (hr : refs f = 0) (hf : IsEnd file pi w f) (hx : x.type = .none)
    (hx0 : x.ref = 0) (hn : pipes.Nodup) (hm : ∀ a ∈ pipes, a ≠ pi → m' a = m a)
    (h0 : (m pi).getLe (pipeOpen (!w)) 4 = 0) :
    Files refs (pipes.erase pi) (Function.update file f x) m' := by
  have hpi : pi ∈ pipes := (h.pipe pi).mpr ⟨w, f, hf⟩
  have hno : ∀ w' f', IsEnd file pi w' f' → f' = f := by
    intro w' f' hf'
    by_cases hw : w' = w
    · subst hw
      exact h.one _ _ _ _ hf' hf
    · have hw' : w' = !w := by cases w <;> cases w' <;> simp_all
      subst hw'
      exact absurd h0 ((h.opened pi hpi _).mpr ⟨f', hf'⟩)
  have hne : ∀ {pi' w' f'}, IsEnd file pi' w' f' → pi' ≠ pi → f' ≠ f := by
    rintro pi' w' f' hf' hn rfl
    exact hn (hf'.2.1.symm.trans hf.2.1)
  refine ⟨ref_close h hx0 hr, closed_close h hx, fun pi' => ?_, ?_, fun pi' hpi' w' => ?_⟩
  · rw [hn.mem_erase_iff, h.pipe pi']
    simp only [isEnd_close hx]
    constructor
    · rintro ⟨hc, w', f', hf'⟩
      exact ⟨w', f', hf', hne hf' hc⟩
    · rintro ⟨w', f', hf', hc⟩
      refine ⟨?_, w', f', hf'⟩
      rintro rfl
      exact hc (hno w' f' hf')
  · simp only [isEnd_close hx]
    exact fun pi' w' f₁ f₂ h₁ h₂ => h.one pi' w' f₁ f₂ h₁.1 h₂.1
  · simp only [isEnd_close hx]
    obtain ⟨hc, hmem⟩ := hn.mem_erase_iff.mp hpi'
    rw [hm pi' hmem hc, h.opened pi' hmem w']
    constructor
    · rintro ⟨f', hf'⟩
      exact ⟨f', hf', hne hf' hc⟩
    · rintro ⟨f', hf'⟩
      exact ⟨f', hf'.1⟩

end

/-- A reference is dropped. -/
theorem fileclose_spec (h : Files (plus refs f) pipes s.file s.kern.mem)
    (ho : Owned g.IsPage s.kern (pipes ++ A)) :
    wp (fileclose g f) (fun _ s' => FilesOnly s s' ∧ ∃ pipes',
      Turns s.kern s'.kern pipes pipes' ∧ Files refs pipes' s'.file s'.kern.mem) E s := by
  rw [fileclose, wp_bind, wp_get]
  simp only [h.ref f, plus_self, Nat.add_sub_cancel]
  rw [if_neg (by omega)]
  by_cases h1 : 0 < refs f
  · rw [if_pos h1]
    refine ⟨⟨rfl, rfl, rfl⟩, pipes, ho.left.refl, h.setRef ?_ fun x => ?_⟩
    · rw [h.ref f, plus_self]
      omega
    · by_cases hx : x = f
      · subst hx
        rw [if_pos rfl, h.ref x, plus_self, Nat.add_sub_cancel]
      · rw [if_neg hx, plus_of_ne hx]
  · have hr : refs f = 0 := by omega
    rw [if_neg h1, wp_bind, wp_modifyFile]
    cases ht : (s.file f).type with
    | none => exact ⟨⟨rfl, rfl, rfl⟩, pipes, ho.left.refl, h.close hr (by simp [ht]) rfl rfl⟩
    | inode => exact ⟨⟨rfl, rfl, rfl⟩, pipes, ho.left.refl, h.close hr (by simp [ht]) rfl rfl⟩
    | device => exact ⟨⟨rfl, rfl, rfl⟩, pipes, ho.left.refl, h.close hr (by simp [ht]) rfl rfl⟩
    | pipe =>
        have hf : IsEnd s.file (s.file f).pipe (s.file f).writable f := ⟨ht, rfl, rfl⟩
        have hpi : (s.file f).pipe ∈ pipes := (h.pipe _).mpr ⟨_, _, hf⟩
        have hperm := List.perm_cons_erase hpi
        have ho' := ho.left.of_perm hperm.symm
        have hn : pipes.Nodup := ho.left.nodup_left
        simp only [wp_onKern]
        refine (pipeclose_spec ho').mono ?_
        rintro _ k' (⟨h0, ht'⟩ | ⟨h0, ht', hw, hw'⟩)
        · refine ⟨⟨rfl, rfl, rfl⟩, pipes.erase (s.file f).pipe,
            (ht'.frame (pipes.erase _)).of_perm hperm (.refl _), h.closeLast hr hf rfl rfl hn ?_ h0⟩
          intro a ha hne
          exact ht'.mem_eq (C := pipes.erase _) ho' (hn.mem_erase_iff.mpr ⟨hne, ha⟩)
        · refine ⟨⟨rfl, rfl, rfl⟩, pipes, (ht'.frame (pipes.erase _)).of_perm hperm hperm,
            h.closeEnd hr hf rfl rfl ?_ h0 hw hw'⟩
          intro a ha hne
          exact ht'.mem_eq (C := pipes.erase _) ho' (hn.mem_erase_iff.mpr ⟨hne, ha⟩)

/-! ## A new pipe -/

/-- The stores to a new pipe open both ends. -/
theorem pipeinit_spec :
    wp (pipeinit pi) (fun _ k' => ∃ pg : Page, k' = k.set pi pg ∧
      ∀ w, pg.getLe (pipeOpen w) 4 ≠ 0) E k := by
  simp only [pipeinit, wp_bind, wp_storeField, Heap.set, Function.update_self,
    Function.update_idem]
  refine ⟨_, rfl, fun w => ?_⟩
  have hopen : ∀ pg : Page, (((pg.setLe pipeReadopen 4 1).setLe pipeWriteopen 4 1).getLe
      (pipeOpen w) 4) = 1 := by
    intro pg
    cases w with
    | true => exact Bytes.Region.getLe_setLe _ _ (pipeOpen_le true)
    | false =>
        exact (Bytes.Region.getLe_setLe_of_disjoint _ _ (pipeOpen_disjoint true)).trans
          (Bytes.Region.getLe_setLe _ _ (pipeOpen_le false))
  have hrest : ∀ (pg : Page) (off wd v : Nat), off + wd ≤ pipeReadopen →
      (pg.setLe off wd v).getLe (pipeOpen w) 4 = pg.getLe (pipeOpen w) 4 := by
    intro pg off wd v h
    refine Bytes.Region.getLe_setLe_of_disjoint _ _ (.inr (h.trans ?_))
    cases w <;> decide
  rw [hrest _ _ _ _ (by decide), hrest _ _ _ _ (by decide), hrest _ _ _ _ (by decide),
    hrest _ _ _ _ (by decide), hopen]
  decide

/-- Two entries become the ends of a new pipe. -/
theorem Files.openPipe {f0 f1 : Fin NFILE} {x0 x1 : File} (h : Files refs pipes file m)
    (hne : f0 ≠ f1) (h0 : (file f0).type = .none) (h1 : (file f1).type = .none)
    (hr0 : x0.ref = (file f0).ref) (hr1 : x1.ref = (file f1).ref)
    (hp0 : x0.type = .pipe ∧ x0.pipe = pi ∧ x0.writable = false)
    (hp1 : x1.type = .pipe ∧ x1.pipe = pi ∧ x1.writable = true)
    (hpos0 : refs f0 ≠ 0) (hpos1 : refs f1 ≠ 0) (hpi : pi ∉ pipes)
    (hm : ∀ a ∈ pipes, m' a = m a) (hopen : ∀ w, (m' pi).getLe (pipeOpen w) 4 ≠ 0) :
    Files refs (pi :: pipes) (Function.update (Function.update file f0 x0) f1 x1) m' := by
  have hend : ∀ pi' w' f', IsEnd (Function.update (Function.update file f0 x0) f1 x1) pi' w' f' ↔
      IsEnd file pi' w' f' ∨ pi' = pi ∧ f' = if w' then f1 else f0 := by
    intro pi' w' f'
    by_cases hf1 : f' = f1
    · subst hf1
      cases w' <;> simp [IsEnd, hp1, h1, Ne.symm hne, eq_comm (a := pi)]
    · by_cases hf0 : f' = f0
      · subst hf0
        cases w' <;> simp [IsEnd, hp0, hf1, h0, eq_comm (a := pi)]
      · cases w' <;> simp [IsEnd, hf0, hf1]
  have hnew : ∀ w' f', ¬ IsEnd file pi w' f' := fun w' f' he => hpi ((h.pipe pi).mpr ⟨w', f', he⟩)
  refine ⟨fun x => ?_, fun x hx => ?_, fun pi' => ?_, ?_, fun pi' hpi' w' => ?_⟩
  · by_cases hx1 : x = f1
    · subst hx1
      rw [Function.update_self, hr1, h.ref]
    · rw [Function.update_of_ne hx1]
      by_cases hx0 : x = f0
      · subst hx0
        rw [Function.update_self, hr0, h.ref]
      · rw [Function.update_of_ne hx0, h.ref]
  · have hx1 : x ≠ f1 := fun he => hpos1 (he ▸ hx)
    have hx0 : x ≠ f0 := fun he => hpos0 (he ▸ hx)
    rw [Function.update_of_ne hx1, Function.update_of_ne hx0]
    exact h.closed x hx
  · rw [List.mem_cons, h.pipe pi']
    simp only [hend]
    constructor
    · rintro (rfl | ⟨w', f', hf'⟩)
      · exact ⟨true, f1, .inr ⟨rfl, rfl⟩⟩
      · exact ⟨w', f', .inl hf'⟩
    · rintro ⟨w', f', hf' | ⟨rfl, _⟩⟩
      · exact .inr ⟨w', f', hf'⟩
      · exact .inl rfl
  · simp only [hend]
    rintro pi' w' f₁ f₂ (h₁ | ⟨rfl, h₁⟩) (h₂ | ⟨he, h₂⟩)
    · exact h.one _ _ _ _ h₁ h₂
    · exact absurd (he ▸ h₁) (hnew w' f₁)
    · exact absurd h₂ (hnew w' f₂)
    · rw [h₁, h₂]
  · simp only [hend]
    rcases List.mem_cons.mp hpi' with rfl | hmem
    · exact ⟨fun _ => ⟨_, .inr ⟨rfl, rfl⟩⟩, fun _ => hopen w'⟩
    · have hc : pi' ≠ pi := fun he => hpi (he ▸ hmem)
      rw [hm pi' hmem, h.opened pi' hmem w']
      simp [hc]

/-- `pipealloc` returns two new references or changes nothing. -/
theorem pipealloc_spec (h : Files refs pipes s.file s.kern.mem)
    (ho : Owned g.IsPage s.kern (pipes ++ A)) :
    wp (pipealloc g) (fun r s' => FilesOnly s s' ∧ ∃ pipes', Turns s.kern s'.kern pipes pipes' ∧
      match r with
      | none => Files refs pipes' s'.file s'.kern.mem
      | some (rf, wf) => Files (plus (plus refs wf) rf) pipes' s'.file s'.kern.mem) E s := by
  rw [pipealloc, wp_bind]
  refine (filealloc_spec h).mono ?_
  rintro r s₁ (⟨rfl, rfl⟩ | ⟨f0, rfl, hz0, hs₁, h₁⟩)
  · exact ⟨.refl _, pipes, ho.left.refl, h⟩
  have hfo₁ : FilesOnly s s₁ := hs₁ ▸ ⟨rfl, rfl, rfl⟩
  have hk₁ : s₁.kern = s.kern := hs₁ ▸ rfl
  have ht₁ : (s₁.file f0).type = .none := by
    rw [hs₁]
    simpa [Sys.setFile] using h.closed f0 hz0
  simp only
  rw [wp_bind]
  rw [← hk₁] at h₁ ho
  refine (filealloc_spec h₁).mono ?_
  rintro r s₂ (⟨rfl, rfl⟩ | ⟨f1, rfl, hz1, hs₂, h₂⟩)
  · simp only
    rw [wp_bind]
    refine (fileclose_spec h₁ ho).mono ?_
    rintro _ s₃ ⟨hfo₃, pipes', ht₃, h₃⟩
    exact ⟨hfo₁.trans hfo₃, pipes', hk₁ ▸ ht₃, h₃⟩
  have hne : f0 ≠ f1 := by
    rintro rfl
    rw [plus_self] at hz1
    omega
  have hfo₂ : FilesOnly s s₂ := hfo₁.trans (hs₂ ▸ ⟨rfl, rfl, rfl⟩)
  have hk₂ : s₂.kern = s₁.kern := hs₂ ▸ rfl
  have ht0 : (s₂.file f0).type = .none := by
    rw [hs₂]
    simpa [Sys.setFile, hne] using ht₁
  have ht1 : (s₂.file f1).type = .none := by
    rw [hs₂]
    simpa [Sys.setFile] using h₁.closed f1 hz1
  clear hs₁ hs₂
  simp only
  rw [← hk₂] at ho h₂
  rw [← hk₁, ← hk₂]
  rw [wp_bind, wp_onKern]
  refine (kalloc_spec ho).mono ?_
  rintro pi k₃ (⟨rfl, rfl, -⟩ | ⟨hpi0, ht₃⟩)
  · rw [if_pos rfl, wp_bind]
    rw [plus_comm] at h₂
    refine (fileclose_spec (s := s₂.setKern s₂.kern) h₂ ho).mono ?_
    rintro _ s₄ ⟨hfo₄, pipes₄, ht₄, h₄⟩
    rw [wp_bind]
    refine (fileclose_spec h₄ (ho.turns (ht₄.frame A))).mono ?_
    rintro _ s₅ ⟨hfo₅, pipes₅, ht₅, h₅⟩
    exact ⟨hfo₂.trans (hfo₄.trans hfo₅), pipes₅, ht₄.trans ht₅, h₅⟩
  · rw [if_neg hpi0, wp_bind, wp_onKern]
    refine pipeinit_spec.mono ?_
    rintro _ k₄ ⟨pg, rfl, hopen⟩
    obtain ⟨ht₄, hsame⟩ := fresh_page ho.left ht₃ pg
    have hnot : pi ∉ pipes := fun hmem => (hsame pi hmem).1 rfl
    have hself : (k₃.set pi pg).mem pi = pg := Function.update_self _ _ _
    refine ⟨hfo₂.trans ⟨rfl, rfl, rfl⟩, pi :: pipes, ht₄, ?_⟩
    rw [plus_comm] at h₂
    refine h₂.openPipe hne ht0 ht1 rfl ?_ ⟨rfl, rfl, rfl⟩ ⟨rfl, rfl, rfl⟩ ?_ ?_ hnot
      (fun a ha => (hsame a ha).2) ?_
    · simp [Sys.setFile, Sys.setKern, Ne.symm hne]
    · simp
    · rw [plus_of_ne (Ne.symm hne)]
      simp
    · intro w
      show Bytes.Region.getLe ((k₃.set pi pg).mem pi) (pipeOpen w) 4 ≠ 0
      rw [hself]
      exact hopen w

end Xv6.Vm
