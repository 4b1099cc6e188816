import Xv6.Vm.Files
import Xv6.Vm.Programs

/-!
# Who owns the pages

The pages of a process are its trapframe and its address space.  In the whole
system (`Inv`) the pages of the processes, the pages of the pipes, the pages that
the kernel holds (`rest`) and the free pages are all the pages of memory, each
once.  Every live process has an address space in shape, a free slot of the
process table is clean, and the file table counts the references of the processes
and those in hand.
-/

namespace Xv6.Vm

open Hoare FreeList RefCount

variable {n : Nat} {g : Layout} {safe : Fin n → Int → Prop} {s s' : Sys n} {k : Machine}
variable {E : Panic → Prop} {m m' : Nat → Page} {rest pipes X Y : List Nat}
variable {hand hand' : List (Fin NFILE)} {p pp : Fin n} {q : Proc n} {L : List Nat}

/-! ## One process -/

/-- A free slot, whatever its `killed`. -/
structure Proc.Clean (q : Proc n) : Prop where
  pid : q.pid = 0
  chan : q.chan = none
  xstate : q.xstate = 0
  parent : q.parent = none
  sz : q.sz = 0
  pagetable : q.pagetable = 0
  trapframe : q.trapframe = 0
  cwd : q.cwd = none
  ofile : ∀ fd, q.ofile fd = none

/-- A slot of the process table.  A process with a pid in `safe` is not killed. -/
structure Proc.Ok (g : Layout) (safe : Int → Prop) (m : Nat → Page) (q : Proc n) : Prop where
  clean : q.state = .unused → q.Clean
  ended : q.state = .zombie → q.cwd = none ∧ ∀ fd, q.ofile fd = none
  live : q.state ≠ .unused → q.trapframe ≠ 0 ∧ q.pagetable ≠ 0
  space : q.pagetable ≠ 0 → Space m q.pagetable (npages q.sz) (framePte q.trapframe) (trampPte g)
  calm : safe q.pid → q.killed = false

def Proc.frames (q : Proc n) : List Nat := if q.trapframe = 0 then [] else [q.trapframe]

def Proc.tables (m : Nat → Page) (q : Proc n) : List Nat :=
  if q.pagetable = 0 then [] else Vm.space m q.pagetable (npages q.sz)

/-- The pages that a process owns. -/
def Proc.pages (m : Nat → Page) (q : Proc n) : List Nat := q.frames ++ q.tables m

theorem Proc.tables_eq (h : q.pagetable ≠ 0) :
    q.tables m = Vm.space m q.pagetable (npages q.sz) := if_neg h

theorem Proc.frames_eq (h : q.trapframe ≠ 0) : q.frames = [q.trapframe] := if_neg h

theorem Proc.pages_eq (ht : q.trapframe ≠ 0) (hp : q.pagetable ≠ 0) :
    q.pages m = q.trapframe :: Vm.space m q.pagetable (npages q.sz) := by
  rw [Proc.pages, Proc.frames_eq ht, Proc.tables_eq hp]
  rfl

theorem Proc.pages_eq_nil (ht : q.trapframe = 0) (hp : q.pagetable = 0) : q.pages m = [] := by
  rw [Proc.pages, Proc.frames, Proc.tables, if_pos ht, if_pos hp]
  rfl

theorem Proc.tables_congr (h : ∀ a ∈ q.tables m, m' a = m a) : q.tables m' = q.tables m := by
  by_cases hp : q.pagetable = 0
  · rw [Proc.tables, Proc.tables, if_pos hp, if_pos hp]
  · rw [Proc.tables_eq hp] at h ⊢
    rw [Proc.tables_eq hp]
    exact space_congr fun a ha => h a (List.mem_append_left _ ha)

theorem Proc.pages_congr (h : ∀ a ∈ q.tables m, m' a = m a) : q.pages m' = q.pages m := by
  rw [Proc.pages, Proc.tables_congr h, Proc.pages]

theorem Proc.Ok.congr {safe : Int → Prop} (hq : q.Ok g safe m)
    (h : ∀ a ∈ q.tables m, m' a = m a) : q.Ok g safe m' where
  clean := hq.clean
  ended := hq.ended
  live := hq.live
  space := fun hp => by
    rw [Proc.tables_eq hp] at h
    exact (hq.space hp).congr fun a ha => h a (List.mem_append_left _ ha)
  calm := hq.calm

/-! ## The whole system -/

/-- The references of the processes to open files. -/
def slots (proc : Fin n → Proc n) : Fin n × Fin NOFILE → Option (Fin NFILE) :=
  fun x => (proc x.1).ofile x.2

/-- The pages of all processes. -/
def procPages (m : Nat → Page) (proc : Fin n → Proc n) : List Nat :=
  (List.finRange n).flatMap fun p => (proc p).pages m

/-- The pages of the other processes. -/
def otherPages (m : Nat → Page) (proc : Fin n → Proc n) (p : Fin n) : List Nat :=
  ((List.finRange n).erase p).flatMap fun pp => (proc pp).pages m

/-- The state of the system when the kernel holds the pages `rest` and the
references `hand`. -/
structure Inv (g : Layout) (safe : Fin n → Int → Prop) (rest pipes : List Nat)
    (hand : List (Fin NFILE)) (s : Sys n) : Prop where
  owned : Owned g.IsPage s.kern (rest ++ (pipes ++ procPages s.kern.mem s.proc))
  complete : ∀ a, g.IsPage a →
    a ∈ (rest ++ (pipes ++ procPages s.kern.mem s.proc)) ++ s.kern.frees
  procs : ∀ p, (s.proc p).Ok g (safe p) s.kern.mem
  files : Files (held (slots s.proc) hand) pipes s.file s.kern.mem

theorem procPages_perm (m : Nat → Page) (proc : Fin n → Proc n) (p : Fin n) :
    (procPages m proc).Perm ((proc p).pages m ++ otherPages m proc p) :=
  flatMap_perm_erase (List.mem_finRange p)

theorem mem_otherPages {proc : Fin n → Proc n} {a : Nat} (h : pp ≠ p)
    (ha : a ∈ (proc pp).pages m) : a ∈ otherPages m proc p :=
  List.mem_flatMap.mpr
    ⟨pp, (List.nodup_finRange n).mem_erase_iff.mpr ⟨h, List.mem_finRange pp⟩, ha⟩

/-- Bring the pages in use to the front. -/
theorem front_perm {P O R Q : List Nat} (h : L.Perm (P ++ O)) :
    ((X ++ R) ++ (Q ++ L)).Perm ((X ++ P) ++ (R ++ (Q ++ O))) := by
  rw [List.perm_iff_count] at h ⊢
  intro a
  have ha := h a
  simp only [List.count_append] at ha ⊢
  omega

/-- The pages in front are turned into others, and the rest stays. -/
theorem Inv.of_turns {F F' C : List Nat} (ho : Owned g.IsPage s.kern L)
    (hc : ∀ a, g.IsPage a → a ∈ L ++ s.kern.frees) (hL : L.Perm (F ++ C)) (ht : Turns s.kern k F F')
    {L' : List Nat} (hL' : L'.Perm (F' ++ C)) :
    Owned g.IsPage k L' ∧ ∀ a, g.IsPage a → a ∈ L' ++ k.frees := by
  have ht' := (ht.frame C).of_perm hL hL'
  exact ⟨ho.turns ht', fun a ha => ht'.perm.mem_iff.mpr (hc a ha)⟩

/-- A process changes, using pages that the kernel holds. -/
theorem Inv.setProc (h : Inv g safe (X ++ rest) pipes hand s)
    (ht : Turns s.kern k (X ++ (s.proc p).pages s.kern.mem) (Y ++ q.pages k.mem))
    (hq : q.Ok g (safe p) k.mem)
    (hh : held (slots (Function.update s.proc p q)) hand' = held (slots s.proc) hand) :
    Inv g safe (Y ++ rest) pipes hand' ((s.setKern k).setProc p q) := by
  have hL := front_perm (X := X) (R := rest) (Q := pipes) (procPages_perm s.kern.mem s.proc p)
  have ho := h.owned.of_perm hL.symm
  have hsame : ∀ a ∈ rest ++ (pipes ++ otherPages s.kern.mem s.proc p), k.mem a = s.kern.mem a :=
    fun a ha => ht.mem_eq ho ha
  have hpages : ∀ pp ≠ p, ∀ a ∈ (s.proc pp).tables s.kern.mem, k.mem a = s.kern.mem a :=
    fun pp hpp a ha => hsame a (List.mem_append_right _ (List.mem_append_right _
      (mem_otherPages hpp (List.mem_append_right _ ha))))
  have hother : otherPages k.mem (Function.update s.proc p q) p =
      otherPages s.kern.mem s.proc p := by
    refine flatMap_erase_congr (List.nodup_finRange n) fun pp _ hpp => ?_
    rw [Function.update_of_ne hpp]
    exact Proc.pages_congr (hpages pp hpp)
  have hL' := front_perm (X := Y) (R := rest) (Q := pipes)
    (procPages_perm k.mem (Function.update s.proc p q) p)
  rw [Function.update_self, hother] at hL'
  obtain ⟨ho', hc'⟩ := Inv.of_turns h.owned h.complete hL ht hL'
  refine ⟨ho', hc', fun pp => ?_, ?_⟩
  · show (Function.update s.proc p q pp).Ok g (safe pp) k.mem
    by_cases hpp : pp = p
    · subst hpp
      rw [Function.update_self]
      exact hq
    · rw [Function.update_of_ne hpp]
      exact (h.procs pp).congr (hpages pp hpp)
  · show Files (held (slots (Function.update s.proc p q)) hand') pipes s.file k.mem
    rw [hh]
    exact h.files.congr fun a ha =>
      hsame a (List.mem_append_right _ (List.mem_append_left _ ha))

/-- The file table changes, using the pages of pipes. -/
theorem Inv.setFiles {pipes' : List Nat} (h : Inv g safe rest pipes hand s)
    (hfo : FilesOnly s s') (ht : Turns s.kern s'.kern pipes pipes')
    (hf : Files (held (slots s.proc) hand') pipes' s'.file s'.kern.mem) :
    Inv g safe rest pipes' hand' s' := by
  have hL : (rest ++ (pipes ++ procPages s.kern.mem s.proc)).Perm
      (pipes ++ (rest ++ procPages s.kern.mem s.proc)) := by
    rw [List.perm_iff_count]
    intro a
    simp only [List.count_append]
    omega
  have ho := h.owned.of_perm hL.symm
  have hpages : ∀ pp, ∀ a ∈ (s.proc pp).tables s.kern.mem, s'.kern.mem a = s.kern.mem a :=
    fun pp a ha => ht.mem_eq ho (List.mem_append_right _ (List.mem_flatMap.mpr
      ⟨pp, List.mem_finRange pp, List.mem_append_right _ ha⟩))
  have hproc : procPages s'.kern.mem s.proc = procPages s.kern.mem s.proc :=
    List.flatMap_congr fun pp _ => Proc.pages_congr (hpages pp)
  have hL' : (rest ++ (pipes' ++ procPages s'.kern.mem s'.proc)).Perm
      (pipes' ++ (rest ++ procPages s.kern.mem s.proc)) := by
    rw [hfo.proc, hproc, List.perm_iff_count]
    intro a
    simp only [List.count_append]
    omega
  obtain ⟨ho', hc'⟩ := Inv.of_turns h.owned h.complete hL ht hL'
  refine ⟨ho', hc', fun pp => ?_, ?_⟩
  · rw [hfo.proc]
    exact (h.procs pp).congr (hpages pp)
  · rw [hfo.proc]
    exact hf

/-- The processes change, but neither their pages nor their open files. -/
theorem Inv.map {proc' : Fin n → Proc n} (h : Inv g safe rest pipes hand s)
    (hpages : ∀ p, (proc' p).trapframe = (s.proc p).trapframe ∧
      (proc' p).pagetable = (s.proc p).pagetable ∧ (proc' p).sz = (s.proc p).sz)
    (hof : ∀ p, (proc' p).ofile = (s.proc p).ofile)
    (hok : ∀ p, (proc' p).Ok g (safe p) s.kern.mem) :
    Inv g safe rest pipes hand { s with proc := proc' } := by
  have hpg : procPages s.kern.mem proc' = procPages s.kern.mem s.proc := by
    refine List.flatMap_congr fun pp _ => ?_
    obtain ⟨h1, h2, h3⟩ := hpages pp
    rw [Proc.pages, Proc.frames, Proc.tables, h1, h2, h3, Proc.pages, Proc.frames, Proc.tables]
  have hsl : slots proc' = slots s.proc := funext fun x => by rw [slots, slots, hof]
  refine ⟨?_, ?_, hok, ?_⟩
  · show Owned g.IsPage s.kern (rest ++ (pipes ++ procPages s.kern.mem proc'))
    rw [hpg]
    exact h.owned
  · show ∀ a, g.IsPage a → a ∈ (rest ++ (pipes ++ procPages s.kern.mem proc')) ++ s.kern.frees
    rw [hpg]
    exact h.complete
  · show Files (held (slots proc') hand) pipes s.file s.kern.mem
    rw [hsl]
    exact h.files

end Xv6.Vm
