import Xv6.Vm.Arguments

/-!
# All of `exec`

`exec` holds more than pages: the transaction, a reference to the inode and its lock.  It gives
them up at three places, and the label `bad` is reached from before and from after the second one.
Here is `exec` with these calls and with the name of the process.  It does to the memory what
`Vm.exec` does, so what is known of that one holds for it: a call that fails leaves no trace, and
a call that succeeds frees the old address space.
-/

namespace Xv6.Vm

open Hoare FreeList

/-- The calls that take and release what `exec` holds. -/
inductive FsCall where
  | begin_op
  | namei
  | ilock
  | iunlockput
  | end_op
deriving DecidableEq, Repr

/-- `p->name`. -/
abbrev Name := Bytes.Region 16

/-- The system, the names of the processes, and the calls made so far. -/
structure ExecSys (n : Nat) where
  sys : Sys n
  name : Fin n → Name
  calls : List FsCall

abbrev ExecM (n : Nat) := Prog (ExecSys n) Panic

/-- The part of the path after the last slash. -/
def lastElement (path : List UInt8) : List UInt8 := (path.reverse.takeWhile (· ≠ 47)).reverse

/-- `safestrcpy(name, text, sizeof(name))`: at most 15 bytes, with the end of the text, and a
zero. -/
def safestrcpy (name : Name) (text : List UInt8) : Name :=
  name.write 0 ((text ++ [0]).take 15 ++ [0])

namespace ExecM

variable {n : Nat} {α : Type}

def onSys (x : SysM n α) : ExecM n α := zoom ExecSys.sys (fun w s => { w with sys := s }) x

def call (c : FsCall) : ExecM n Unit := modify fun w => { w with calls := w.calls ++ [c] }

def setName (p : Fin n) (path : List UInt8) : ExecM n Unit :=
  modify fun w =>
    { w with name := Function.update w.name p (safestrcpy (w.name p) (lastElement path)) }

/-- The label `bad`, with the variables `pagetable`, `sz` and `ip`. -/
def bad (g : Layout) (pagetable sz : Nat) (ip : Option FileData) : ExecM n Int := do
  if pagetable ≠ 0 then
    onSys (onKern (proc_freepagetable g pagetable sz))
  if ip.isSome then
    call .iunlockput
    call .end_op
  return -1

/-- `exec` with the calls of the file system; `file` is what `namei` finds for the path. -/
def exec (g : Layout) (p : Fin n) (path : List UInt8) (file : Option FileData)
    (argv : List Nat) : ExecM n Int := do
  call .begin_op
  call .namei
  match file with
  | none =>
      call .end_op
      return -1
  | some ip =>
      call .ilock
      let bytes := readi ip 0 elfhdrSize
      let elf : Elfhdr := ofBytes bytes
      if bytes.length ≠ elfhdrSize then
        bad g 0 0 (some ip)
      else if elf.magic ≠ ELF_MAGIC then
        bad g 0 0 (some ip)
      else
        let w ← get
        let q := w.sys.proc p
        let pagetable ← onSys (onKern (proc_pagetable g q.trapframe))
        if pagetable = 0 then
          bad g 0 0 (some ip)
        else
          let (loaded, sz) ← onSys (onKern
            (loadProgram g pagetable ip elf.phnum (elf.phoff % 2 ^ 32) 0))
          if loaded = false then
            bad g pagetable sz (some ip)
          else
            call .iunlockput
            call .end_op
            let (stack, sz) ← onSys (onKern (makeStack g pagetable sz argv))
            match stack with
            | none => bad g pagetable sz none
            | some sp =>
                onSys (onKern (storeField q.trapframe trapframeA1 8 sp))
                setName p path
                onSys (modifyProc p fun q => { q with pagetable := pagetable, sz := sz })
                onSys (onKern (storeField q.trapframe trapframeEpc 8 elf.entry))
                onSys (onKern (storeField q.trapframe trapframeSp 8 sp))
                onSys (onKern (proc_freepagetable g q.pagetable q.sz))
                return argv.length

end ExecM

/-! ## The calls -/

section

variable {n : Nat} {g : Layout} {w w' : ExecSys n} {p : Fin n} {E : Panic → Prop}
variable {path : List UInt8} {file : Option FileData} {argv : List Nat}
  {Q : Unit → ExecSys n → Prop} {pt sz : Nat}

/-- What `exec` calls: with a file, it takes and releases the inode in the transaction. -/
def execCallsOf (file : Option FileData) : List FsCall :=
  match file with
  | none => [.begin_op, .namei, .end_op]
  | some _ => [.begin_op, .namei, .ilock, .iunlockput, .end_op]

/-- The calls were made, and the name is new exactly if the call succeeded. -/
structure Traced (w w' : ExecSys n) (p : Fin n) (path : List UInt8) (file : Option FileData)
    (r : Int) : Prop where
  calls : w'.calls = w.calls ++ execCallsOf file
  name : w'.name = if r = -1 then w.name else
    Function.update w.name p (safestrcpy (w.name p) (lastElement path))

theorem wp_onSys {α : Type} {x : SysM n α} {Q : α → ExecSys n → Prop} :
    wp (ExecM.onSys x) Q E w ↔ wp x (fun a s => Q a { w with sys := s }) E w.sys := wp_zoom

theorem wp_call {c : FsCall} :
    wp (ExecM.call c) Q E w ↔ Q () { w with calls := w.calls ++ [c] } := Iff.rfl

theorem wp_setName :
    wp (ExecM.setName p path) Q E w ↔ Q () { w with
      name := Function.update w.name p (safestrcpy (w.name p) (lastElement path)) } := Iff.rfl

/-- Without a page table, `bad` only releases the inode. -/
theorem wp_bad_zero {ip : FileData} {Q : Int → ExecSys n → Prop} :
    wp (ExecM.bad g 0 0 (some ip)) Q E w ↔
      Q (-1) { w with calls := w.calls ++ [.iunlockput] ++ [.end_op] } := Iff.rfl

/-- With a page table, `bad` frees it, and releases the inode if it is held. -/
theorem wp_bad {Q : Int → ExecSys n → Prop} (hpt : pt ≠ 0) {file : Option FileData} :
    wp (ExecM.bad g pt sz file) Q E w ↔ wp (onKern (proc_freepagetable g pt sz) : SysM n Unit)
      (fun _ s => Q (-1) { w with
        sys := s
        calls := w.calls ++ if file.isSome then [.iunlockput, .end_op] else [] }) E w.sys := by
  rw [ExecM.bad, if_pos hpt, wp_bind, wp_onSys]
  cases file with
  | none =>
      simp only [Option.isSome_none, Bool.false_eq_true, if_false, List.append_nil]
      exact Iff.rfl
  | some ip =>
      have hassoc : w.calls ++ [.iunlockput, .end_op] = w.calls ++ [.iunlockput] ++ [.end_op] := by
        rw [List.append_assoc]
        rfl
      simp only [Option.isSome_some, if_true, hassoc]
      exact Iff.rfl

/-- `exec` does to the system what `Vm.exec` does, and makes its calls. -/
theorem exec_simulates {Q : Int → Sys n → Prop} (path : List UInt8)
    (h : wp (Vm.exec g p file argv) Q E w.sys) :
    wp (ExecM.exec g p path file argv) (fun r w' => Q r w'.sys ∧ Traced w w' p path file r)
      E w := by
  cases file with
  | none => exact ⟨h, by simp [execCallsOf], rfl⟩
  | some ip =>
      unfold Vm.exec at h
      unfold ExecM.exec
      simp only [wp_bind, wp_call] at h ⊢
      split at h
      next h1 =>
        rw [if_pos h1, wp_bad_zero]
        exact ⟨h, by simp [execCallsOf], rfl⟩
      next h1 =>
      rw [if_neg h1]
      split at h
      next h2 =>
        rw [if_pos h2, wp_bad_zero]
        exact ⟨h, by simp [execCallsOf], rfl⟩
      next h2 =>
      rw [if_neg h2, wp_bind, wp_get, wp_bind, wp_onSys]
      rw [wp_bind, wp_get, wp_bind] at h
      refine h.mono fun pt s₁ h => ?_
      split at h
      next hpt =>
        rw [if_pos hpt, wp_bad_zero]
        exact ⟨h, by simp [execCallsOf], rfl⟩
      next hpt =>
      rw [if_neg hpt, wp_bind, wp_onSys]
      rw [wp_bind] at h
      refine h.mono fun x s₂ h => ?_
      obtain ⟨loaded, sz⟩ := x
      simp only at h ⊢
      split at h
      next hload =>
        rw [if_pos hload, wp_bad hpt]
        rw [wp_bind] at h
        exact h.mono fun _ s h => ⟨h, by simp [execCallsOf], rfl⟩
      next hload =>
      rw [if_neg hload, wp_bind, wp_call, wp_bind, wp_call, wp_bind, wp_onSys]
      rw [wp_bind] at h
      refine h.mono fun x s₃ h => ?_
      obtain ⟨stack, sz⟩ := x
      cases stack with
      | none =>
          simp only at h ⊢
          rw [wp_bad hpt]
          rw [wp_bind] at h
          exact h.mono fun _ s h => ⟨h, by simp [execCallsOf], rfl⟩
      | some sp =>
          simp only at h ⊢
          rw [wp_bind] at h
          rw [wp_bind, wp_onSys]
          refine h.mono fun _ s h => ?_
          rw [wp_bind] at h
          rw [wp_bind, wp_setName, wp_bind, wp_onSys]
          refine h.mono fun _ s h => ?_
          rw [wp_bind] at h
          rw [wp_bind, wp_onSys]
          refine h.mono fun _ s h => ?_
          rw [wp_bind] at h
          rw [wp_bind, wp_onSys]
          refine h.mono fun _ s h => ?_
          rw [wp_bind] at h
          rw [wp_bind, wp_onSys]
          refine h.mono fun _ s h => ⟨h, by simp [execCallsOf], ?_⟩
          rw [if_neg (by omega)]

/-! ## All or nothing -/

variable {safe : Fin n → Int → Prop} {rest pipes : List Nat} {hand : List (Fin NFILE)}
variable {s s' : Sys n} {k : Machine}

/-- A call leaves no trace: the processes and all memory in use are as they were, and the pages
that were free are free again. -/
structure NoTrace (s s' : Sys n) (p : Fin n) : Prop where
  proc : s'.proc = s.proc
  free : s'.kern.frees.Perm s.kern.frees
  mem : ∀ a, a ∉ s.kern.frees → s'.kern.mem a = s.kern.mem a
  pages : ∀ a ∈ (s.proc p).pages s.kern.mem, s'.kern.mem a = s.kern.mem a
  bytes : ∀ va < (s.proc p).sz, userByte s'.kern.mem (s.proc p).pagetable va =
    userByte s.kern.mem (s.proc p).pagetable va

/-- The old address space was freed, each page once, and the trapframe was kept. -/
structure OldFreed (s s' : Sys n) (p : Fin n) : Prop where
  once : ∀ a ∈ space s.kern.mem (s.proc p).pagetable (npages (s.proc p).sz),
    a ∉ s.kern.frees ∧ s'.kern.frees.count a = 1
  frame : (s'.proc p).trapframe = (s.proc p).trapframe ∧
    (s.proc p).trapframe ∉ s'.kern.frees

theorem noTrace_of_turns (h : Inv g safe rest pipes hand s) (hp : (s.proc p).state ≠ .unused)
    (ht : Turns s.kern k [] []) : NoTrace s (s.setKern k) p := by
  have hmem : ∀ a, a ∉ s.kern.frees → k.mem a = s.kern.mem a := fun a ha =>
    ht.rest a List.not_mem_nil ha
  have hpages : ∀ a ∈ (s.proc p).pages s.kern.mem, k.mem a = s.kern.mem a := fun a ha =>
    hmem a ((h.owned_proc p).left.not_free ha)
  obtain ⟨htf, hpt⟩ := (h.procs p).live hp
  refine ⟨rfl, ht.perm, hmem, hpages, fun va hva => ?_⟩
  refine (Kept.of_same fun a ha => hpages a ?_).userByte (div_lt_npages hva)
  rw [Proc.pages_eq htf hpt]
  exact List.mem_cons_of_mem _ ha

theorem Committed.oldFreed {sp entry : Nat} (h : Inv g safe rest pipes hand s)
    (hp : (s.proc p).state ≠ .unused) (hpt : pt ≠ 0) (hc : Committed g s s' p pt sz sp entry k) :
    OldFreed s s' p := by
  obtain ⟨htf, hold⟩ := (h.procs p).live hp
  have hproc : s'.proc p = { s.proc p with pagetable := pt, sz := sz } := by
    rw [hc.proc, Function.update_self]
  have ho := (h.owned_proc p).left
  have hfreed := hc.freed.perm
  rw [hproc, Proc.pages_eq (q := { s.proc p with pagetable := pt, sz := sz }) htf hpt,
    Proc.pages_eq htf hold] at hfreed
  rw [Proc.pages_eq htf hold] at ho
  rw [show Vm.space s'.kern.mem pt (npages sz) = Vm.space k.mem pt (npages sz) from
    space_congr fun a ha => hc.image a (List.mem_append_left _ ha)] at hfreed
  have htaken := hc.taken.perm
  have hnodup := ho.nodup
  rw [List.nodup_iff_count_le_one] at hnodup
  have hcount : ∀ a, (a = (s.proc p).trapframe ∨
      a ∈ Vm.space s.kern.mem (s.proc p).pagetable (npages (s.proc p).sz)) →
      s.kern.frees.count a = 0 ∧ (Vm.space k.mem pt (npages sz)).count a = 0 := by
    intro a ha
    have hfree : s.kern.frees.count a = 0 := List.count_eq_zero.mpr
      (ho.not_free (List.mem_cons.mpr ha))
    have hle := htaken.count_eq a
    rw [List.count_append, List.nil_append, hfree] at hle
    exact ⟨hfree, by omega⟩
  refine ⟨fun a ha => ?_, ?_, ?_⟩
  · obtain ⟨h1, h2⟩ := hcount a (.inr ha)
    have h3 := hfreed.count_eq a
    have h4 := hnodup a
    have h5 := List.count_pos_iff.mpr ha
    simp only [List.cons_append, List.count_cons, List.count_append] at h3 h4
    exact ⟨List.count_eq_zero.mp h1, by omega⟩
  · rw [hproc]
  · obtain ⟨h1, h2⟩ := hcount _ (.inl rfl)
    have h3 := hfreed.count_eq (s.proc p).trapframe
    have h4 := hnodup (s.proc p).trapframe
    simp only [List.cons_append, List.count_cons_self, List.count_append] at h3 h4
    exact List.count_eq_zero.mp (by omega)

/-- `exec` returns.  It closes its transaction and releases the inode once, and fails without a
trace or frees the old address space. -/
theorem exec_all_or_nothing (h : Inv g safe rest pipes hand w.sys)
    (hp : (w.sys.proc p).state ≠ .unused) (path : List UInt8) (file : Option FileData)
    (argv : List Nat) :
    wp (ExecM.exec g p path file argv) (fun r w' =>
      Inv g safe rest pipes hand w'.sys ∧ w'.calls = w.calls ++ execCallsOf file ∧
      (r = -1 → NoTrace w.sys w'.sys p ∧ w'.name = w.name) ∧
      (r ≠ -1 → r = argv.length ∧ OldFreed w.sys w'.sys p)) (fun _ => False) w := by
  refine (exec_simulates path ((exec_spec h hp).and (exec_full h hp))).mono ?_
  rintro r w' ⟨⟨hinv, hcase⟩, hcalls, hname⟩
  refine ⟨hinv, hcalls, fun hr => ?_, fun hr => ?_⟩
  · rw [if_pos hr] at hname
    rcases hcase with ⟨-, ⟨k, hk, ht⟩, -⟩ | ⟨hr', -⟩
    · rw [hk]
      exact ⟨noTrace_of_turns h hp ht, hname⟩
    · omega
  · rcases hcase with ⟨hr', -⟩ | ⟨hr', ip, -, pt, sz, k, hready, sp, top, k', -, hc⟩
    · exact absurd hr' hr
    · exact ⟨hr', hc.oldFreed h hp hready.ne_zero⟩

end

/-- The first process of a machine runs a program. -/
theorem exec_all_or_nothing_text : ∃ taken s₀,
    bootZeroed smallLayout = .ok (taken, s₀) ∧
      wp (ExecM.exec smallLayout 0 [47, 97] (some textFile) []) (fun r w' => r = 0 ∧
        OldFreed s₀ w'.sys 0 ∧ w'.calls = [.begin_op, .namei, .ilock, .iunlockput, .end_op])
        (fun _ => False) ⟨s₀, fun _ _ => 0, []⟩ := by
  obtain ⟨taken, s₀, pipes, hb, hg, halive, pt, top, k, hstack⟩ := boot_text
  refine ⟨taken, s₀, hb, ?_⟩
  generalize textFile = ip at hstack ⊢
  have hexec := exec_simulates (w := ⟨s₀, fun _ _ => 0, []⟩) [47, 97]
    (hstack.exec_nil (E := fun _ => False) hg halive)
  refine (hexec.and (exec_all_or_nothing (w := ⟨s₀, fun _ _ => 0, []⟩) hg halive _ _ _)).mono ?_
  rintro r w' ⟨⟨rfl, -⟩, -, hcalls, -, hok⟩
  exact ⟨rfl, (hok (by decide)).2, hcalls⟩

end Xv6.Vm
