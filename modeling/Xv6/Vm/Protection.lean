import Xv6.Vm.Copies
import Xv6.Vm.Slots

/-!
# Read-only user memory

`exec` maps the text of a program without `PTE_W`, and the hardware then refuses
stores of the program to it.  `copyout` finds its pages with `walkaddr`, which tests
`PTE_V` and `PTE_U` only, so a system call that is given the address of a read-only
page writes it.  Read-only memory is safe from a copy exactly if the copy does not
reach it.
-/

namespace Xv6.Vm

open Hoare FreeList

/-- A user page without `PTE_W`. -/
def ReadOnly (m : Nat → Page) (p v : Nat) : Prop :=
  Accessible m p v ∧ entry m p v &&& PTE_W = 0

instance (m : Nat → Page) (p v : Nat) : Decidable (ReadOnly m p v) :=
  inferInstanceAs (Decidable (_ ∧ _))

/-- A range of `len` bytes includes bytes of page `v`. -/
structure Includes (va len v : Nat) : Prop where
  nonempty : 0 < len
  from_start : va / PGSIZE ≤ v
  in_range : v * PGSIZE < va + len

/-- What a copy of `len` bytes to `va` with result `r` may do to read-only pages. -/
structure Respects (s s' : Machine) (p va len : Nat) (r : Int) : Prop where
  kept : ∀ v, ReadOnly s.mem p v →
    s'.mem (PTE2PA (entry s.mem p v)) = s.mem (PTE2PA (entry s.mem p v))
  refused : ∀ v, ReadOnly s.mem p v → Includes va len v → r = -1

/-- No read-only page is met before the first page that is not accessible. -/
def Shielded (m : Nat → Page) (p va len : Nat) : Prop :=
  ∀ v, ReadOnly m p v → Includes va len v → ∃ w, va / PGSIZE ≤ w ∧ w < v ∧ ¬ Accessible m p w

variable {s s' : Machine} {m : Nat → Page}
variable {p va v len k : Nat} {r : Int}

/-- The bytes before the end of a copy are in pages after each of which comes no
inaccessible page. -/
theorem Stops.pages (h : Stops m p va len r k) {i w : Nat} (hi : i < k)
    (h1 : va / PGSIZE ≤ w) (h2 : w ≤ (va + i) / PGSIZE) : Accessible m p w := by
  have hp0 : 0 < PGSIZE := by decide
  by_cases hw : va ≤ w * PGSIZE
  · have hle : w * PGSIZE ≤ va + i := (Nat.le_div_iff_mul_le hp0).mp h2
    have hg := h.good (w * PGSIZE - va) (by omega)
    rwa [Nat.add_sub_of_le hw, Nat.mul_div_cancel _ hp0] at hg
  · have hw' : va / PGSIZE = w :=
      Nat.le_antisymm h1 ((Nat.le_div_iff_mul_le hp0).mpr (Nat.le_of_not_le hw))
    have hg := h.good 0 (by omega)
    rwa [Nat.add_zero, hw'] at hg

/-- A copy that is shielded leaves read-only pages alone. -/
theorem Shielded.respects {src : List UInt8} (hu : UserPages s.mem p)
    (h : Shielded s.mem p va src.length) (hk : Stops s.mem p va src.length r k)
    (hst : Stored s s' p va (src.take k)) : Respects s s' p va src.length r where
  kept := fun v hv => by
    refine hst.page_eq fun i hi he => ?_
    rw [List.length_take_of_le hk.le] at hi
    have hvi := hu.distinct _ _ (hk.good i hi) hv.1 he
    have hle := hk.le
    have hin : Includes va src.length v := by
      refine ⟨by omega, hvi ▸ Nat.div_le_div_right (Nat.le_add_right va i), ?_⟩
      have hmul := Nat.div_mul_le_self (va + i) PGSIZE
      rw [hvi] at hmul
      omega
    obtain ⟨w, h1, h2, hbad⟩ := h v hv hin
    exact hbad (hk.pages hi h1 (by omega))
  refused := fun v hv hin => by
    obtain ⟨w, h1, h2, hbad⟩ := h v hv hin
    have hne : r ≠ 0 := fun h0 => by
      rcases hk.copied.zero_iff.mp h0 with hz | ⟨-, hall⟩
      · exact Nat.ne_of_gt hin.nonempty hz
      · refine hbad (hall w h1 (Nat.lt_of_le_of_lt ?_ hin.in_range))
        exact Nat.mul_le_mul_right _ (Nat.le_of_lt h2)
    exact (hk.copied.part hne).1

/-- Bytes that differ from those in memory. -/
def otherBytes (m : Nat → Page) (p va len : Nat) : List UInt8 :=
  (List.range len).map fun i => userByte m p (va + i) + 1

theorem length_otherBytes : (otherBytes m p va len).length = len := by
  simp [otherBytes]

/-- A page of the range is reached if it and all pages before it are accessible. -/
theorem Copied.reaches (h : Copied m p va len r k) (hin : Includes va len v)
    (hacc : ∀ w, va / PGSIZE ≤ w → w ≤ v → Accessible m p w) :
    max va (v * PGSIZE) < va + k := by
  obtain ⟨hpos, hstart, hrange⟩ := hin
  have hlt : va < (v + 1) * PGSIZE :=
    (Nat.div_lt_iff_lt_mul (by decide)).mp (Nat.lt_succ_of_le hstart)
  by_cases hr : r = 0
  · have hk := h.all hr
    omega
  · obtain ⟨-, b, hb, hk⟩ := h.part hr
    have hvb : v < b := by
      by_contra hle
      exact hb.bad (hacc b hb.from_start (Nat.le_of_not_lt hle))
    have hmul : (v + 1) * PGSIZE ≤ b * PGSIZE := Nat.mul_le_mul_right _ hvb
    rw [Nat.succ_mul] at hmul hlt
    have hp0 : 0 < PGSIZE := by decide
    omega

/-- A copy of other bytes changes a read-only page that it reaches. -/
theorem not_respects (hv : ReadOnly s.mem p v)
    (hin : Includes va len v) (hacc : ∀ w, va / PGSIZE ≤ w → w < v → Accessible s.mem p w)
    (hk : Stops s.mem p va len r k)
    (hst : Stored s s' p va ((otherBytes s.mem p va len).take k)) :
    ¬ Respects s s' p va len r := by
  intro hresp
  have hreach := hk.copied.reaches hin fun w h1 h2 => by
    rcases Nat.lt_or_eq_of_le h2 with h2 | rfl
    · exact hacc w h1 h2
    · exact hv.1
  obtain ⟨i, hi⟩ := Nat.exists_eq_add_of_le (Nat.le_max_left va (v * PGSIZE))
  have hik : i < k := by omega
  have hle := hk.le
  have hpage : (va + i) / PGSIZE = v := by
    rw [← hi]
    rcases Nat.le_total va (v * PGSIZE) with hc | hc
    · rw [Nat.max_eq_right hc, Nat.mul_div_cancel _ (by decide)]
    · rw [Nat.max_eq_left hc]
      exact Nat.le_antisymm hin.from_start ((Nat.le_div_iff_mul_le (by decide)).mpr hc)
  have hlen : ((otherBytes s.mem p va len).take k).length = k :=
    List.length_take_of_le (by rw [length_otherBytes]; exact hle)
  have hlt : i < ((otherBytes s.mem p va len).take k).length := by omega
  have hnew := hst.inside i hlt
  have hold : byteOf s'.mem (place s.mem p (va + i)) = userByte s.mem p (va + i) := by
    rw [userByte, byteOf, byteOf, place, hpage, hresp.kept v hv]
  have hval : ((otherBytes s.mem p va len).take k)[i] = userByte s.mem p (va + i) + 1 := by
    simp [otherBytes]
  rw [hold, hval, left_eq_add] at hnew
  exact absurd hnew (by decide)

/-- Whatever is copied, read-only pages are safe exactly if the copy does not reach
them. -/
theorem respects_iff (hu : UserPages s.mem p) :
    (∀ src : List UInt8, src.length = len →
      wp (copyout p va src) (fun r s' => Respects s s' p va len r) (fun _ => False) s) ↔
      Shielded s.mem p va len := by
  constructor
  · intro h v hv hin
    by_contra hc
    push Not at hc
    have hstop : wp (copyout p va (otherBytes s.mem p va len)) _ (fun _ => False) s :=
      copyoutLoop_stops hu (Nat.le_refl _)
    have hw := (h _ length_otherBytes).and hstop
    cases hx : copyout p va (otherBytes s.mem p va len) s with
    | error e => exact (wp_error hx).mp hw
    | ok x =>
        obtain ⟨hresp, k, hk, hst⟩ := (wp_ok hx).mp hw
        rw [length_otherBytes] at hk
        exact not_respects hv hin hc hk hst hresp
  · rintro h src rfl
    refine wp.mono (copyoutLoop_stops hu (Nat.le_refl _)) ?_
    rintro r s' ⟨k, hk, hst⟩
    exact h.respects hu hk hst

/-- After boot and any system calls, a copy to a process respects the read-only
pages, whatever it copies, exactly if it does not reach one. -/
theorem copyout_respects_iff (n : Nat) (g : Layout) (mem : Nat → Page) :
    ∃ taken s₀, boot g (zeroed (n + 1) mem) = .ok (taken, s₀) ∧
      ∀ xs s, Run.exec (step g) s₀ xs = some s → ∀ q, (s.proc q).state ≠ .unused → ∀ va len,
        ((∀ src : List UInt8, src.length = len →
          wp (copyout (s.proc q).pagetable va src)
            (fun r k => Respects s.kern k (s.proc q).pagetable va len r) (fun _ => False) s.kern) ↔
          Shielded s.kern.mem (s.proc q).pagetable va len) := by
  obtain ⟨taken, s₀, hb, hg⟩ := boot_ok (n := n) g mem (fun _ _ => False) fun _ _ => id
  refine ⟨taken, s₀, hb, fun xs s hr q hq va len => respects_iff ?_⟩
  obtain ⟨pipes, h⟩ := good_of_run hg hr
  exact h.userPages hq

/-! ## Writing the text of a program -/

/-- A program with one segment of text, readable and executable. -/
def textElf : List UInt8 :=
  Bytes.toLe 4 ELF_MAGIC ++ List.replicate 28 0 ++ Bytes.toLe 8 elfhdrSize ++
    List.replicate 16 0 ++ Bytes.toLe 2 1 ++ List.replicate 6 0 ++
  (Bytes.toLe 4 ELF_PROG_LOAD ++ Bytes.toLe 4 5 ++ List.replicate 32 0 ++ Bytes.toLe 8 16 ++
    List.replicate 8 0)

def textFile : FileData := fun off n => (textElf.drop off).take n

/-- The page table that `exec` makes for the program, in a memory of sixteen pages:
the calls of `exec` that build it, one after the other. -/
def textTable : Kern (Nat × Bool × Option Nat) := do
  kinit smallLayout
  let trapframe ← kalloc
  let pagetable ← proc_pagetable smallLayout trapframe
  let (loaded, sz) ← loadProgram smallLayout pagetable textFile 1 elfhdrSize 0
  let (stack, _) ← makeStack smallLayout pagetable sz []
  return (pagetable, loaded, stack)

/-- The program is loaded and its text is mapped without `PTE_W`, but `copyout`
changes the first byte of the text and reports success. -/
theorem copyout_writes_text :
    wp textTable (fun x s => x.2.1 = true ∧ x.2.2.isSome ∧ ReadOnly s.mem x.1 0 ∧
      wp (copyout x.1 0 [1]) (fun r s' => r = 0 ∧ userByte s'.mem x.1 0 ≠ userByte s.mem x.1 0)
        (fun _ => False) s) (fun _ => False) (zeroed NPROC fun _ => Page.fill 0).kern := by
  decide +kernel

end Xv6.Vm
