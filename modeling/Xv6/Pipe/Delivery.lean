import Xv6.Pipe.Calls
import Xv6.Vm.Sbrk

/-!
# What a read of a pipe delivers

`piperead` with the page table of the reader: each byte goes to user memory by a `copyout` of
its own.  The loop takes a byte out of the pipe before it copies it, so the byte at which
`copyout` fails is taken and not delivered.
-/

namespace Xv6.Pipe

open Hoare Vm

/-- The number of bytes in the pipe. -/
def available (pi : Pipe) : Nat := (pi.nwrite + UINT - pi.nread) % UINT

/-- The `j`-th byte in the pipe. -/
def nth (pi : Pipe) (j : Nat) : UInt8 := pi.data.get ((pi.nread + j) % UINT % PIPESIZE)

/-- `pi->nread++`. -/
def take (pi : Pipe) : Pipe := { pi with nread := (pi.nread + 1) % UINT }

/-- The copying loop of `piperead` with `k = n - i` bytes left: the pipe and `i`. -/
def pipereadLoop (pagetable addr : Nat) : Nat → Pipe → Nat → Kern (Pipe × Nat)
  | 0, pi, i => return (pi, i)
  | k + 1, pi, i =>
      if pi.nread = pi.nwrite then
        return (pi, i)
      else do
        let ch := pi.data.get (pi.nread % PIPESIZE)
        let r ← copyout pagetable ((addr + i) % 2 ^ 64) [ch]
        if r = -1 then
          return (pi.take, i)
        else
          pipereadLoop pagetable addr k pi.take (i + 1)

/-- A stretch of `piperead` with the page table of the reader. -/
def pipereadUser (pagetable addr : Nat) (killed : Bool) (n : Int) (pi : Pipe) :
    Kern (Pipe × Ends) := do
  if pi.nread = pi.nwrite ∧ pi.writeopen then
    return (pi, if killed then .ret (-1) else .sleep)
  else
    let (pi, i) ← pipereadLoop pagetable addr n.toNat pi 0
    return (pi, .ret i)

/-! ## The counters -/

section Counters

variable {pi : Pipe}

/-- The counters of the pipe are `uint`s. -/
structure Uints (pi : Pipe) : Prop where
  nread : pi.nread < UINT
  nwrite : pi.nwrite < UINT

theorem Uints.take (h : Uints pi) : Uints pi.take := ⟨Nat.mod_lt _ (by decide), h.nwrite⟩

theorem Uints.available_eq_zero (h : Uints pi) : pi.available = 0 ↔ pi.nread = pi.nwrite := by
  have h1 := h.nread
  have h2 := h.nwrite
  unfold available
  rw [UINT] at *
  omega

theorem Uints.available_take (h : Uints pi) (hne : pi.nread ≠ pi.nwrite) :
    pi.available = pi.take.available + 1 := by
  have h1 := h.nread
  have h2 := h.nwrite
  unfold available Pipe.take
  simp only [UINT] at *
  omega

theorem nread_take (pi : Pipe) (c : Nat) :
    (pi.take.nread + c) % UINT = (pi.nread + (c + 1)) % UINT := by
  show ((pi.nread + 1) % UINT + c) % UINT = _
  rw [Nat.mod_add_mod]
  congr 1
  omega

theorem nth_take (pi : Pipe) (j : Nat) : pi.take.nth j = pi.nth (j + 1) := by
  show pi.data.get _ = pi.data.get _
  rw [nread_take]

theorem Uints.nth_zero (h : Uints pi) : pi.data.get (pi.nread % PIPESIZE) = pi.nth 0 := by
  rw [nth, Nat.add_zero, Nat.mod_eq_of_lt h.nread]

end Counters

/-! ## The bytes that are taken -/

section Took

variable {dst : Nat → Bool} {k i c : Nat} {pi : Pipe} {r : Read}

/-- The copying loop with `k` bytes to go, from `i` on, ended with `c` bytes more. -/
structure Took (dst : Nat → Bool) (k : Nat) (pi : Pipe) (i : Nat) (r : Read) (c : Nat) : Prop where
  ends : r.ends = .ret ((i + c : Nat) : Int)
  good : ∀ j < c, dst (i + j)
  bytes : r.bytes.take c = (List.range c).map pi.nth
  why : c = min k pi.available ∧ r.pipe.nread = (pi.nread + c) % UINT ∨
    c < min k pi.available ∧ ¬ dst (i + c) ∧ r.pipe.nread = (pi.nread + (c + 1)) % UINT

theorem Took.empty (h : Uints pi) (h0 : min k pi.available = 0) :
    Took dst k pi i ⟨pi, [], .ret i⟩ 0 :=
  ⟨rfl, fun _ hj => absurd hj (Nat.not_lt_zero _), rfl,
    .inl ⟨h0.symm, (Nat.mod_eq_of_lt h.nread).symm⟩⟩

theorem Took.failed {ch : UInt8} (hpos : 0 < min k pi.available) (hbad : ¬ dst i) :
    Took dst k pi i ⟨pi.take, [ch], .ret i⟩ 0 :=
  ⟨rfl, fun _ hj => absurd hj (Nat.not_lt_zero _), rfl, .inr ⟨hpos, hbad, rfl⟩⟩

theorem Took.next (h : Uints pi) (hne : pi.nread ≠ pi.nwrite) (hok : dst i)
    (ht : Took dst k pi.take (i + 1) r c) :
    Took dst (k + 1) pi i { r with bytes := pi.nth 0 :: r.bytes } (c + 1) := by
  obtain ⟨hends, hgood, hbytes, hwhy⟩ := ht
  have hav := h.available_take hne
  rw [nread_take, nread_take, Nat.add_right_comm i 1 c] at hwhy
  refine ⟨?_, fun j hj => ?_, ?_, ?_⟩
  · rw [Nat.add_right_comm i 1 c] at hends
    exact hends
  · cases j with
    | zero => exact hok
    | succ j =>
        have hj' := hgood j (Nat.lt_of_succ_lt_succ hj)
        rwa [Nat.add_right_comm i 1 j] at hj'
  · rw [List.take_succ_cons, hbytes, List.range_succ_eq_map, List.map_cons, List.map_map]
    exact congrArg _ (List.map_congr_left fun j _ => nth_take pi j)
  · rcases hwhy with ⟨hc, hr⟩ | ⟨hc, hbad, hr⟩
    · exact .inl ⟨by omega, hr⟩
    · exact .inr ⟨by omega, hbad, hr⟩

theorem pipereadCopy_took (dst : Nat → Bool) (k : Nat) (h : Uints pi) (i : Nat) :
    ∃ c, Took dst k pi i (pipereadCopy dst k pi i) c := by
  induction k generalizing pi i with
  | zero => exact ⟨0, .empty h (Nat.zero_min _)⟩
  | succ k ih =>
      unfold pipereadCopy
      by_cases he : pi.nread = pi.nwrite
      · rw [if_pos he]
        refine ⟨0, .empty h ?_⟩
        rw [h.available_eq_zero.mpr he, Nat.min_zero]
      · rw [if_neg he, h.nth_zero]
        by_cases hd : dst i
        · rw [if_pos hd]
          obtain ⟨c, hc⟩ := ih h.take (i + 1)
          exact ⟨c + 1, hc.next h he hd⟩
        · rw [if_neg hd]
          have hpos : 0 < pi.available := by
            rw [h.available_take he]
            exact Nat.succ_pos _
          exact ⟨0, .failed (Nat.lt_min.mpr ⟨Nat.succ_pos k, hpos⟩) hd⟩

end Took

/-! ## User memory -/

section Loop

variable {s : Machine} {E : Panic → Prop} {p addr : Nat} {pi : Pipe}

/-- Where `copyout` can store a byte. -/
def reach (m : Nat → Page) (p addr j : Nat) : Bool := Accessible m p ((addr + j) / PGSIZE)

/-- `copyout` of one byte. -/
theorem copyout_one (hu : UserPages s.mem p) (va : Nat) (ch : UInt8) :
    wp (copyout p va [ch]) (fun r s' =>
      r = 0 ∧ Accessible s.mem p (va / PGSIZE) ∧ Stored s s' p va [ch] ∨
      r = -1 ∧ ¬ Accessible s.mem p (va / PGSIZE) ∧ Stored s s' p va []) E s := by
  refine wp.mono (copyoutLoop_stops hu (Nat.le_refl _)) ?_
  rintro r s' ⟨k, ⟨hle, hgood, hwhy⟩, hst⟩
  rcases hwhy with ⟨hr, rfl⟩ | ⟨hr, hk, hbad, -⟩
  · exact .inl ⟨hr, hgood 0 Nat.one_pos, hst⟩
  · obtain rfl : k = 0 := Nat.lt_one_iff.mp hk
    exact .inr ⟨hr, hbad, hst⟩

/-- What the loop did to user memory: it stored `c` bytes from `bs`. -/
structure Delivered (s s' : Machine) (p va : Nat) (bs : List UInt8) (c : Nat) : Prop where
  good : ∀ j < c, Accessible s.mem p ((va + j) / PGSIZE)
  stored : Stored s s' p va (bs.take c)

theorem Delivered.userByte {s' : Machine} {va c : Nat} {bs : List UInt8} {f : Nat → UInt8}
    (h : Delivered s s' p va bs c) (hu : UserPages s.mem p)
    (hbs : bs.take c = (List.range c).map f) :
    ∀ j < c, Vm.userByte s'.mem p (va + j) = f j := by
  intro j hj
  obtain ⟨hgood, hst⟩ := h
  rw [hbs] at hst
  have hlen : ((List.range c).map f).length = c := by simp
  have hmt := hst.tbl_same hu fun i hi => hgood i (hlen ▸ hi)
  rw [Vm.userByte, place, entry_congr hmt, ← place, hst.inside j (hlen.symm ▸ hj)]
  simp

/-- The loop on the page table of the reader is the loop that is given where `copyout` can
store, and the bytes are in user memory then. -/
theorem pipereadLoop_refines {k i : Nat} (hu : UserPages s.mem p) (haddr : addr + i < 2 ^ 64) :
    wp (pipereadLoop p addr k pi i) (fun r s' =>
      r.1 = (pipereadCopy (reach s.mem p addr) k pi i).pipe ∧ ∃ c, r.2 = i + c ∧
      (pipereadCopy (reach s.mem p addr) k pi i).ends = .ret ((i + c : Nat) : Int) ∧
      Delivered s s' p (addr + i) (pipereadCopy (reach s.mem p addr) k pi i).bytes c) E s := by
  induction k generalizing s pi i with
  | zero => exact ⟨rfl, 0, rfl, rfl, nofun, .refl s p _⟩
  | succ k ih =>
      unfold pipereadLoop pipereadCopy
      by_cases he : pi.nread = pi.nwrite
      · rw [if_pos he, if_pos he]
        exact ⟨rfl, 0, rfl, rfl, nofun, .refl s p _⟩
      · rw [if_neg he, if_neg he, Nat.mod_eq_of_lt haddr, wp_bind]
        refine wp.mono (copyout_one hu _ _) ?_
        rintro r s₁ (⟨rfl, hacc, hst⟩ | ⟨rfl, hbad, hst⟩)
        · rw [if_neg (by decide), if_pos (show reach s.mem p addr i = true from decide_eq_true hacc)]
          have hmt := hst.tbl_same hu fun j hj => by
            rwa [Nat.lt_one_iff.mp hj, Nat.add_zero]
          have hlt := hacc.lt_maxva rfl
          have hmax : MAXVA < 2 ^ 64 := by decide
          have hsame : reach s₁.mem p addr = reach s.mem p addr := by
            funext j
            exact decide_eq_decide.mpr (by rw [Accessible, entry_congr hmt, Accessible])
          refine wp.mono (ih (hu.congr hmt) (by omega)) ?_
          rw [hsame]
          rintro r' s' ⟨hpipe, c, hc, hends, hgood, hst'⟩
          refine ⟨hpipe, c + 1, by omega, ?_, ?_⟩
          · rw [Nat.add_right_comm i 1 c] at hends
            exact hends
          · have hgood' : ∀ j < c + 1, Accessible s.mem p ((addr + i + j) / PGSIZE) := by
              intro j hj
              cases j with
              | zero => exact hacc
              | succ j =>
                  have hj' := hgood j (Nat.lt_of_succ_lt_succ hj)
                  rw [Accessible, entry_congr hmt] at hj'
                  rwa [← Nat.add_assoc, Nat.add_assoc _ 1 j, Nat.add_comm 1 j] at hj'
            refine ⟨hgood', hst.append hu hst' fun j hj => hgood' j ?_⟩
            rw [List.length_singleton, Nat.add_comm] at hj
            exact Nat.lt_of_lt_of_le hj (Nat.succ_le_succ (List.length_take_le ..))
        · rw [if_pos rfl, if_neg (by simpa [reach] using hbad)]
          exact ⟨rfl, 0, rfl, rfl, nofun, hst⟩

end Loop

/-! ## `piperead` -/

/-- For every pipe, page table of a reader, address and `n`: a call of `piperead` that returns
`i` has taken exactly `i` bytes out of the pipe and stored them, if and only if every byte that
the call is to read can be stored.  No call stops. -/
theorem delivered_iff {s : Machine} {p : Nat} (hu : UserPages s.mem p) {pi : Pipe} (h : Uints pi)
    {addr : Nat} (haddr : addr < 2 ^ 64) (killed : Bool) (n : Int) (E : Panic → Prop) :
    wp (pipereadUser p addr killed n pi) (fun r s' => ∀ i : Nat, r.2 = .ret i →
      ((r.1.nread = (pi.nread + i) % UINT ∧ ∀ j < i, userByte s'.mem p (addr + j) = pi.nth j) ↔
        ∀ j < min n.toNat pi.available, Accessible s.mem p ((addr + j) / PGSIZE))) E s := by
  unfold pipereadUser
  split
  · intro i hi
    cases killed with
    | false => cases hi
    | true =>
        have hi' : (-1 : Int) = i := Ends.ret.inj hi
        omega
  · rw [wp_bind]
    refine wp.mono (pipereadLoop_refines (i := 0) hu haddr) ?_
    rintro ⟨pi', c'⟩ s' ⟨rfl, c, rfl, hends, hdel⟩ i hi
    obtain rfl : 0 + c = i := by exact_mod_cast Ends.ret.inj hi
    obtain ⟨d, htook⟩ := pipereadCopy_took (reach s.mem p addr) n.toNat h 0
    obtain rfl : c = d := by
      have hcd := Ends.ret.inj (hends.symm.trans htook.ends)
      omega
    rw [Nat.zero_add]
    have hmem := hdel.userByte hu htook.bytes
    rcases htook.why with ⟨hc, hr⟩ | ⟨hc, hbad, hr⟩
    · refine iff_of_true ⟨hr, hmem⟩ fun j hj => ?_
      rw [← hc] at hj
      exact hdel.good j hj
    · refine iff_of_false (fun hP => ?_) fun hall => hbad ?_
      · have hne := hr.symm.trans hP.1
        rw [UINT] at hne
        omega
      · rw [Nat.zero_add]
        exact decide_eq_true (hall c hc)

/-- A pipe with one byte. -/
def oneByte : Pipe := ⟨Bytes.Region.write (fun _ => 0) 0 [7], 0, 1, true, true⟩

/-- The first process reads a byte to its first address. -/
theorem delivered_iff_boot : ∃ taken s₀ r k, bootZeroed smallLayout = .ok (taken, s₀) ∧
    pipereadUser (s₀.proc 0).pagetable 0 false 1 oneByte s₀.kern = .ok (r, k) ∧ r.2 = .ret 1 ∧
    r.1.nread = 1 ∧ userByte k.mem (s₀.proc 0).pagetable 0 = 7 := by
  obtain ⟨taken, s₀, hb, ⟨pipes, hg⟩, hst, hacc, hone⟩ : ∃ taken s₀,
      bootZeroed smallLayout = .ok (taken, s₀) ∧ Good smallLayout (fun _ _ => False) taken s₀ ∧
      (s₀.proc 0).state ≠ .unused ∧ Accessible s₀.kern.mem (s₀.proc 0).pagetable 0 ∧
      wp (pipereadUser (s₀.proc 0).pagetable 0 false 1 oneByte) (fun r _ => r.2 = .ret 1)
        (fun _ => False) s₀.kern := exists_boot_of_check (by decide +kernel)
  have hu := hg.userPages (q := 0) hst
  have huints : Uints oneByte := ⟨by decide, by decide⟩
  have haddr : 0 < 2 ^ 64 := by decide
  have hdel := delivered_iff hu huints haddr false 1 fun _ => False
  have hav : min (Int.toNat 1) oneByte.available = 1 := by decide +kernel
  obtain ⟨r, k, hrun, hiff, hret⟩ := (hdel.and hone).returns
  obtain ⟨hread, hbytes⟩ := (hiff 1 hret).mpr fun j hj => by
    rw [hav, Nat.lt_one_iff] at hj
    rw [hj]
    exact hacc
  exact ⟨taken, s₀, r, k, hb, hrun, hret, hread, hbytes 0 Nat.one_pos⟩

/-- The first process reads a byte to an address above its memory.  The call returns 0 and the
pipe is empty. -/
theorem byte_lost : ∃ taken s₀,
    bootZeroed smallLayout = .ok (taken, s₀) ∧
      wp (pipereadUser (s₀.proc 0).pagetable MAXVA false 1 oneByte) (fun r _ =>
        r.2 = .ret 0 ∧ oneByte.nread = 0 ∧ r.1.nread = 1 ∧ r.1.nwrite = 1)
        (fun _ => False) s₀.kern := by
  obtain ⟨taken, s₀, hb, -, hlost⟩ : ∃ taken s₀, bootZeroed smallLayout = .ok (taken, s₀) ∧
      Good smallLayout (fun _ _ => False) taken s₀ ∧
      wp (pipereadUser (s₀.proc 0).pagetable MAXVA false 1 oneByte) (fun r _ =>
        r.2 = .ret 0 ∧ oneByte.nread = 0 ∧ r.1.nread = 1 ∧ r.1.nwrite = 1)
        (fun _ => False) s₀.kern := exists_boot_of_check (by decide +kernel)
  exact ⟨taken, s₀, hb, hlost⟩

end Xv6.Pipe
