import Xv6.Vm.Calls

/-!
# What `exec` leaves

`exec` makes an address space, loads the program into it, puts a stack on top, and then lets the
process have it.  When `exec` fails, the memory that was in use is as it was and all other pages
are free again.  When it succeeds, the process has the address space that `makeStack` left, and the
old one is freed.
-/

namespace Xv6.Vm

open Hoare FreeList

variable {n : Nat} {g : Layout} {safe : Fin n → Int → Prop} {s s' : Sys n} {k : Machine}
variable {E : Panic → Prop} {rest pipes : List Nat} {hand : List (Fin NFILE)} {p : Fin n}
  {pt sz : Nat}

/-- The header of a file. -/
def elfhdr (ip : FileData) : Elfhdr := ofBytes (readi ip 0 elfhdrSize)

/-- `exec` for a file has come to the stack: the program is loaded in the page table `pt`, and
`k` is the memory. -/
structure Ready (g : Layout) (trapframe : Nat) (k₀ : Machine) (ip : FileData) (pt sz : Nat)
    (k : Machine) : Prop where
  header : (readi ip 0 elfhdrSize).length = elfhdrSize
  magic : (elfhdr ip).magic = ELF_MAGIC
  ne_zero : pt ≠ 0
  loaded : ∃ k₁, proc_pagetable g trapframe k₀ = .ok (pt, k₁) ∧
    loadProgram g pt ip (elfhdr ip).phnum ((elfhdr ip).phoff % 2 ^ 32) 0 k₁ = .ok ((true, sz), k)

/-- There is one way to get there. -/
theorem Ready.unique {tf pt' sz' : Nat} {k₀ k' : Machine} {ip : FileData}
    (h : Ready g tf k₀ ip pt sz k) (h' : Ready g tf k₀ ip pt' sz' k') :
    pt' = pt ∧ sz' = sz ∧ k' = k := by
  obtain ⟨k₁, h1, h2⟩ := h.loaded
  obtain ⟨k₁', h1', h2'⟩ := h'.loaded
  rw [h1] at h1'
  cases h1'
  rw [h2] at h2'
  cases h2'
  exact ⟨rfl, rfl, rfl⟩

/-- The end of a call that succeeds, after which the process has the address space `pt` as it
was in `k`. -/
structure Committed (g : Layout) (s s' : Sys n) (p : Fin n) (pt sz sp entry : Nat)
    (k : Machine) : Prop where
  proc : s'.proc = Function.update s.proc p { s.proc p with pagetable := pt, sz := sz }
  file : s'.file = s.file
  space : Space k.mem pt (npages sz) (framePte (s.proc p).trapframe) (trampPte g)
  taken : Turns s.kern k [] (Vm.space k.mem pt (npages sz))
  image : ∀ a ∈ Vm.space k.mem pt (npages sz), s'.kern.mem a = k.mem a
  frame : s'.kern.mem (s.proc p).trapframe =
    (((s.kern.mem (s.proc p).trapframe).setLe trapframeA1 8 sp).setLe trapframeEpc 8 entry).setLe
      trapframeSp 8 sp
  freed : Turns s.kern s'.kern (s.proc p |>.pages s.kern.mem) ((s'.proc p).pages s'.kern.mem)

theorem Committed.inv {sp entry : Nat} (hc : Committed g s s' p pt sz sp entry k)
    (h : Inv g safe rest pipes hand s) (hp : (s.proc p).state ≠ .unused) (hpt : pt ≠ 0) :
    Inv g safe rest pipes hand s' := by
  have hok := h.procs p
  have hself : s'.proc p = { s.proc p with pagetable := pt, sz := sz } := by
    rw [hc.proc, Function.update_self]
  have ht := hc.freed
  rw [hself] at ht
  obtain ⟨h1, h2, h3, h4⟩ := Inv.setProc (X := []) (Y := []) h ht
    ⟨fun hu => absurd hu hp, hok.ended, fun _ => ⟨(hok.live hp).1, hpt⟩,
      fun _ => hc.space.congr fun a ha => hc.image a (List.mem_append_left _ ha), hok.calm⟩
    (held_update_of_same rfl)
  refine ⟨?_, ?_, ?_, ?_⟩ <;> rw [hc.proc]
  · exact h1
  · exact h2
  · exact h3
  · rw [hc.file]
    exact h4

/-- The last part of `exec`, which cannot fail. -/
theorem commit_full {sp entry : Nat} {r : Int} (h : Inv g safe rest pipes hand s)
    (hp : (s.proc p).state ≠ .unused) (hpt : pt ≠ 0)
    (hs : Space k.mem pt (npages sz) (framePte (s.proc p).trapframe) (trampPte g))
    (ht : Turns s.kern k [] (space k.mem pt (npages sz))) :
    wp (do
        onKern (storeField (s.proc p).trapframe trapframeA1 8 sp)
        modifyProc p fun q => { q with pagetable := pt, sz := sz }
        onKern (storeField (s.proc p).trapframe trapframeEpc 8 entry)
        onKern (storeField (s.proc p).trapframe trapframeSp 8 sp)
        onKern (proc_freepagetable g (s.proc p).pagetable (s.proc p).sz)
        return r) (fun r' s' => r' = r ∧ Committed g s s' p pt sz sp entry k) E (s.setKern k) := by
  obtain ⟨htf, hold⟩ := (h.procs p).live hp
  have ho := h.owned_proc p
  have hpages := Proc.pages_eq (m := s.kern.mem) htf hold
  rw [hpages] at ho
  have ho₁ := ho.turns (ht.frame _)
  have hsame : ∀ a ∈ (s.proc p).trapframe ::
      space s.kern.mem (s.proc p).pagetable (npages (s.proc p).sz), k.mem a = s.kern.mem a :=
    fun a ha => ht.mem_eq (A := []) ho (List.mem_append_left _ ha)
  simp only [wp_bind, wp_onKern, wp_storeField, wp_modifyProc, wp_pure, setKern_kern,
    setProc_kern, Heap.set_set, Heap.mem_set_self]
  generalize hpg : Bytes.Region.setLe (Bytes.Region.setLe (Bytes.Region.setLe
    (k.mem (s.proc p).trapframe) trapframeA1 8 sp) trapframeEpc 8 entry) trapframeSp 8 sp = pg
  -- the trapframe is neither in the new address space nor in the old one
  have hw : Turns k (k.set (s.proc p).trapframe pg) _ _ := ho₁.write
    (List.mem_append_right _ (List.mem_append_left _ List.mem_cons_self)) pg
  have hne : ∀ a ∈ space k.mem pt (npages sz) ++
      space s.kern.mem (s.proc p).pagetable (npages (s.proc p).sz),
      (k.set (s.proc p).trapframe pg).mem a = k.mem a := by
    intro a ha
    refine Heap.mem_set_of_ne k pg ?_
    rcases List.mem_append.mp ha with ha | ha
    · exact ho₁.ne ha (List.mem_append_left _ List.mem_cons_self)
    · exact (ho₁.right.left.ne (A := [(s.proc p).trapframe]) List.mem_cons_self ha).symm
  have hold' : ∀ a ∈ space s.kern.mem (s.proc p).pagetable (npages (s.proc p).sz),
      (k.set (s.proc p).trapframe pg).mem a = s.kern.mem a := fun a ha =>
    (hne a (List.mem_append_right _ ha)).trans (hsame a (List.mem_cons_of_mem _ ha))
  have hspace : space (k.set (s.proc p).trapframe pg).mem (s.proc p).pagetable
      (npages (s.proc p).sz) = space s.kern.mem (s.proc p).pagetable (npages (s.proc p).sz) :=
    space_congr fun a ha => hold' a (List.mem_append_left _ ha)
  have ho₂ := ho₁.turns hw
  have hsold := ((h.procs p).space hold).congr fun a ha => hold' a (List.mem_append_left _ ha)
  refine (proc_freepagetable_spec hsold ?_ (leaf_framePte _) leaf_trampPte).mono ?_
  · rw [hspace]
    exact ho₂.right.left.right (A := [(s.proc p).trapframe])
  intro _ k' ht'
  rw [hspace] at ht'
  generalize hO : space s.kern.mem (s.proc p).pagetable (npages (s.proc p).sz) = O at *
  generalize hN : space k.mem pt (npages sz) = N at *
  have hperm : (N ++ (s.proc p).trapframe :: O).Perm (O ++ (s.proc p).trapframe :: N) := by
    rw [List.perm_iff_count]
    intro a
    simp only [List.count_append, List.count_cons]
    omega
  have hleft : Owned g.IsPage (k.set (s.proc p).trapframe pg)
      (O ++ (s.proc p).trapframe :: N) := by
    refine Owned.of_perm (Owned.left (C := rest ++ (pipes ++ otherPages s.kern.mem s.proc p)) ?_)
      hperm.symm
    rw [List.append_assoc]
    exact ho₂
  have hkept : ∀ a ∈ (s.proc p).trapframe :: N,
      k'.mem a = (k.set (s.proc p).trapframe pg).mem a := fun a ha => ht'.mem_eq hleft ha
  have himage : ∀ a ∈ N, k'.mem a = k.mem a := fun a ha =>
    (hkept a (List.mem_cons_of_mem _ ha)).trans (hne a (List.mem_append_left _ ha))
  refine ⟨trivial, rfl, rfl, hs, by rw [hN]; exact ht, by rw [hN]; exact himage, ?_, ?_⟩
  · refine (hkept _ List.mem_cons_self).trans ?_
    rw [Heap.mem_set_self, ← hpg, hsame _ List.mem_cons_self]
  · have hnew : Proc.pages k'.mem { s.proc p with pagetable := pt, sz := sz } =
        (s.proc p).trapframe :: N := by
      rw [Proc.pages_eq (q := { s.proc p with pagetable := pt, sz := sz }) htf hpt, ← hN]
      exact congrArg _ (space_congr fun a ha => himage a (hN ▸ List.mem_append_left _ ha))
    have htake : Turns s.kern k ((s.proc p).trapframe :: O) (N ++ (s.proc p).trapframe :: O) :=
      ht.frame _
    have hwrite : Turns k (k.set (s.proc p).trapframe pg) (N ++ (s.proc p).trapframe :: O)
        (N ++ (s.proc p).trapframe :: O) :=
      (ho.left.turns htake).write (List.mem_append_right _ List.mem_cons_self) pg
    have hgive := (ht'.frame ((s.proc p).trapframe :: N)).of_perm hperm (.refl _)
    have hproc : (Function.update s.proc p { s.proc p with pagetable := pt, sz := sz }) p =
        { s.proc p with pagetable := pt, sz := sz } := Function.update_self ..
    rw [hpages]
    refine Eq.mp ?_ ((htake.trans hwrite).trans hgive)
    rw [← hnew]
    exact congrArg (Turns _ _ _) (congrArg (Proc.pages k'.mem) hproc.symm)

/-- The label `bad`: the address space that cannot be completed is freed. -/
theorem bad_full (h : Inv g safe rest pipes hand s)
    (hs : Space k.mem pt (npages sz) (framePte (s.proc p).trapframe) (trampPte g))
    (ht : Turns s.kern k [] (space k.mem pt (npages sz))) :
    wp (onKern (proc_freepagetable g pt sz) >>= fun _ => pure (-1 : Int))
      (fun r s' => r = -1 ∧ ∃ k, s' = s.setKern k ∧ Turns s.kern k [] []) E (s.setKern k) := by
  rw [wp_bind, wp_onKern]
  have ho := (h.owned_proc p).turns (ht.frame _)
  refine (proc_freepagetable_spec hs ho.left (leaf_framePte _) leaf_trampPte).mono ?_
  intro _ k' ht'
  exact ⟨rfl, k', rfl, ht.trans ht'⟩

/-- `exec` returns; it fails exactly when the program cannot be loaded or the stack cannot be
made. -/
theorem exec_full {file : Option FileData} {argv : List Nat} (h : Inv g safe rest pipes hand s)
    (hp : (s.proc p).state ≠ .unused) :
    wp (exec g p file argv) (fun r s' =>
      (r = -1 ∧ (∃ k, s' = s.setKern k ∧ Turns s.kern k [] []) ∧
        ∀ ip, file = some ip → ∀ pt sz k, Ready g (s.proc p).trapframe s.kern ip pt sz k →
          ∀ sp sz' k', makeStack g pt sz argv k ≠ .ok ((some sp, sz'), k')) ∨
      r = argv.length ∧ ∃ ip, file = some ip ∧ ∃ pt sz k,
        Ready g (s.proc p).trapframe s.kern ip pt sz k ∧ ∃ sp sz' k',
          makeStack g pt sz argv k = .ok ((some sp, sz'), k') ∧
          Committed g s s' p pt sz' sp (elfhdr ip).entry k') E s := by
  have hnone : Turns s.kern s.kern [] [] := (Owned.left (A := []) (h.owned_proc p)).refl
  cases file with
  | none => exact .inl ⟨rfl, ⟨s.kern, rfl, hnone⟩, by intro _ hi; cases hi⟩
  | some ip =>
      unfold exec
      simp only
      split
      next hlen =>
        refine .inl ⟨rfl, ⟨s.kern, rfl, hnone⟩, ?_⟩
        rintro _ ⟨⟩ pt sz k hr
        exact absurd hr.header hlen
      next hlen =>
      split
      next hmagic =>
        refine .inl ⟨rfl, ⟨s.kern, rfl, hnone⟩, ?_⟩
        rintro _ ⟨⟩ pt sz k hr
        exact absurd hr.magic hmagic
      next hmagic =>
      rw [wp_bind, wp_get, wp_bind, wp_onKern]
      refine (proc_pagetable_spec h.owned (h.trapframe_page hp).2.2).run.mono ?_
      rintro pt k₁ ⟨⟨-, ⟨rfl, ht₁⟩ | ⟨hpt₁, ht₁, hs₁⟩⟩, hrun₁⟩
      · rw [if_pos rfl]
        refine .inl ⟨rfl, ⟨k₁, rfl, ht₁⟩, ?_⟩
        rintro _ ⟨⟩ pt sz k hr
        obtain ⟨_, hr₁, _⟩ := hr.loaded
        rw [hrun₁] at hr₁
        cases hr₁
        exact absurd rfl hr.ne_zero
      rw [if_neg hpt₁]
      have hz : npages 0 = 0 := rfl
      rw [← hz] at ht₁ hs₁
      rw [wp_bind, wp_onKern]
      refine (loadProgram_spec hs₁ (fun v hv => by omega)
        ((h.owned_proc p).turns (ht₁.frame _)).left).run.mono ?_
      rintro ⟨loaded, sz⟩ k₂ ⟨⟨hs₂, ht₂⟩, hrun₂⟩
      have ht₂' := ht₁.trans ht₂
      simp only at hs₂ ⊢
      split
      next hload =>
        refine (bad_full h hs₂ ht₂').mono ?_
        rintro r s' ⟨hr, hk⟩
        refine .inl ⟨hr, hk, ?_⟩
        rintro _ ⟨⟩ pt' sz' k' hr
        obtain ⟨_, hr₁, hr₂⟩ := hr.loaded
        rw [hrun₁] at hr₁
        cases hr₁
        rw [elfhdr, hrun₂, hload] at hr₂
        cases hr₂
      next hload =>
      rw [Bool.not_eq_false] at hload
      have hready : Ready g (s.proc p).trapframe s.kern ip pt sz k₂ :=
        ⟨not_not.mp hlen, not_not.mp hmagic, hpt₁, k₁, hrun₁, hload ▸ hrun₂⟩
      rw [wp_bind, wp_onKern]
      refine (makeStack_spec hs₂ (noUser_framePte _) noUser_trampPte
        ((h.owned_proc p).turns (ht₂'.frame _)).left).run.mono ?_
      rintro ⟨stack, sz₃⟩ k₃ ⟨⟨hs₃, ht₃⟩, hrun₃⟩
      have ht₃' := ht₂'.trans ht₃
      simp only at hs₃ ⊢
      cases stack with
      | none =>
          refine (bad_full h hs₃ ht₃').mono ?_
          rintro r s' ⟨hr, hk⟩
          refine .inl ⟨hr, hk, ?_⟩
          rintro _ ⟨⟩ pt' sz' k' hr sp sz'' k'' hm
          obtain ⟨rfl, rfl, rfl⟩ := hready.unique hr
          rw [hrun₃] at hm
          cases hm
      | some sp =>
          refine (commit_full h hp hpt₁ hs₃ ht₃').mono ?_
          rintro r s' ⟨hr, hc⟩
          exact .inr ⟨hr, ip, rfl, pt, sz, k₂, hready, sp, sz₃, k₃, hrun₃, hc⟩

end Xv6.Vm
