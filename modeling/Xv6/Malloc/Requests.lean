import Xv6.Malloc.Programs
import Xv6.Vm.Pids

/-!
# What `malloc` asks the kernel for

Here `morecore` calls the `sbrk` of the kernel's model.  The number of bytes that it asks for is
a product of `size_t` numbers, but the parameter of `sbrk` is an `int`: a product of `2 ^ 31` or
more becomes a negative number, or a number that is too small.  The kernel then shrinks the
process or leaves it as it is and reports success, and `morecore` records a block that the
process does not have.

For all smaller requests the allocator gets what it asks for, and all that was proved of it
with the ideal `sbrk` is true of the memory that the kernel has mapped.
-/

namespace Xv6.Malloc

open Hoare

/-! ## The allocator in a process -/

/-- `nu * sizeof(Header)`, as the `int` that `sbrk` takes. -/
def request (nu : Nat) : Int := ((UNIT * nu : Nat) : Int).bmod UINT

/-- The number of units that `morecore` asks for. -/
def raised (nu : Nat) : Nat := if nu < 4096 then 4096 else nu

/-- A system, and the allocator of one of its processes. -/
structure World (n : Nat) where
  heap : Heap
  sys : Vm.Sys n

/-- The process may write to the address. -/
def Mapped {n : Nat} (s : Vm.Sys n) (p : Fin n) (a : Nat) : Prop :=
  Vm.Accessible s.kern.mem (s.proc p).pagetable (a / Vm.PGSIZE) ∧
    Vm.entry s.kern.mem (s.proc p).pagetable (a / Vm.PGSIZE) &&& Vm.PTE_W ≠ 0

instance {n : Nat} (s : Vm.Sys n) (p : Fin n) (a : Nat) : Decidable (Mapped s p a) :=
  inferInstanceAs (Decidable (_ ∧ _))

/-- The loop of `malloc`, where `more` is its call of `morecore`. -/
def World.mallocLoop {n : Nat} (more : Nat → World n → Option (World n × Nat)) (nunits : Nat) :
    Nat → World n → Nat → Nat → Option (World n × Nat)
  | 0, _, _, _ => none
  | fuel + 1, w, prevp, q =>
      if (w.heap.mem q).size ≥ nunits then
        let (heap, r) := take w.heap nunits prevp q
        some (⟨heap, w.sys⟩, r)
      else if q = w.heap.freep then
        match more fuel w with
        | none => none
        | some (w, q) =>
            if q = 0 then some (w, 0) else mallocLoop more nunits fuel w q (w.heap.mem q).ptr
      else mallocLoop more nunits fuel w q (w.heap.mem q).ptr

section

variable {n : Nat} (g : Vm.Layout) (p : Fin n)

/-- `morecore` after the call of `sbrk`.  A store to a header that is not mapped stops the
process. -/
def World.enter (fuel : Nat) (w : World n) (nu : Nat) :
    Except Vm.Panic (Int × Vm.Sys n) → Option (World n × Nat)
  | .error _ => none
  | .ok (r, sys) =>
      if r = -1 then
        some (⟨w.heap, sys⟩, 0)
      else
        let hp := r.toNat
        if Mapped sys p hp ∧ Mapped sys p (hp + UNIT - 1) then
          let heap := { w.heap with
            mem := setSize w.heap.mem hp nu
            top := hp + UNIT * nu
            regions := ⟨hp, nu⟩ :: w.heap.regions }
          (free fuel heap (hp + UNIT)).map fun heap => (⟨heap, sys⟩, heap.freep)
        else
          none

def World.morecore (fuel : Nat) (w : World n) (nu : Nat) : Option (World n × Nat) :=
  w.enter p fuel (raised nu) (Vm.sys_sbrk g p (request (raised nu)) w.sys)

/-- `malloc`, with the address of `base`. -/
def World.malloc (base fuel : Nat) (w : World n) (nbytes : Nat) : Option (World n × Nat) :=
  let heap :=
    if w.heap.freep = 0 then
      { w.heap with mem := setSize (setPtr w.heap.mem base base) base 0, freep := base }
    else w.heap
  World.mallocLoop (fun fuel w => w.morecore g p fuel (units nbytes)) (units nbytes) fuel
    ⟨heap, w.sys⟩ heap.freep (heap.mem heap.freep).ptr

/-- The memory of the system is in order and the process is alive. -/
def Sound (s : Vm.Sys n) : Prop :=
  (∃ safe rest pipes hand, Vm.Inv g safe rest pipes hand s) ∧ (s.proc p).state ≠ .unused

/-- The largest size for which the request is an `int`. -/
def LIMIT : Nat := 2 ^ 31 - 32

/-- The runs in which no block larger than `LIMIT` is asked for.  Other processes, and other
system calls of the process, may do anything to the system that leaves the memory of the process
mapped. -/
inductive Reach (base : Nat) : World n → List Block → Prop where
  | start {gap : Nat} {mem : Nat → Header} {s : Vm.Sys n} : Sound g p s →
      base + UNIT + gap ≤ (s.proc p).sz → Reach base ⟨⟨mem, 0, base + UNIT + gap, []⟩, s⟩ []
  | malloc {w w' : World n} {live : List Block} {nbytes fuel r : Nat} : Reach base w live →
      nbytes ≤ LIMIT → w.malloc g p base fuel nbytes = some (w', r) →
      Reach base w' (if r = 0 then live else ⟨r - UNIT, units nbytes⟩ :: live)
  | free {w : World n} {live : List Block} {b : Block} {fuel : Nat} {heap : Heap} :
      Reach base w live → b ∈ live → Malloc.free fuel w.heap (b.addr + UNIT) = some heap →
      Reach base ⟨heap, w.sys⟩ (live.erase b)
  | write {w : World n} {live : List Block} {b : Block} {a : Nat} (h : Header) :
      Reach base w live → b ∈ live → b.addr < a → a < b.stop →
      Reach base ⟨{ w.heap with mem := Function.update w.heap.mem a h }, w.sys⟩ live
  | others {w : World n} {live : List Block} {s : Vm.Sys n} : Reach base w live → Sound g p s →
      (w.sys.proc p).sz ≤ (s.proc p).sz → (∀ a, Mapped w.sys p a → Mapped s p a) →
      Reach base ⟨w.heap, s⟩ live

end

variable {n : Nat} {g : Vm.Layout} {p : Fin n} {base nu nbytes fuel r : Nat} {d : Int}
variable {w w' : World n} {s s' : Vm.Sys n} {live : List Block} {E : Vm.Panic → Prop}
  {a x nunits : Nat} {more : Nat → World n → Option (World n × Nat)}

/-! ## Requests -/

theorem request_lt (nu : Nat) : request nu < 2 ^ 31 := by
  have hu : UINT = 4294967296 := rfl
  rw [request, hu]
  have h := Int.bmod_lt (x := ((UNIT * nu : Nat) : Int)) (m := 4294967296) (by decide)
  omega

theorem request_eq (h : UNIT * nu < 2 ^ 31) : request nu = (UNIT * nu : Nat) := by
  have hu : UINT = 4294967296 := rfl
  rw [request, hu]
  exact Int.bmod_eq_of_le (by omega) (by omega)

/-- The request is exact for the sizes up to the limit. -/
theorem raised_lt_iff (nbytes : Nat) : UNIT * raised (units nbytes) < 2 ^ 31 ↔ nbytes ≤ LIMIT := by
  have hu : UNIT = 16 := rfl
  have hl : LIMIT = 2147483616 := rfl
  rw [raised, units, hu, hl]
  split <;> omega

theorem raised_pos (nu : Nat) : 0 < raised nu := by
  rw [raised]
  split <;> omega

/-! ## `sbrk` -/

theorem mapped_of_newPage (ha : a / Vm.PGSIZE < Vm.ramPages)
    (h : Vm.NewPage s.kern.mem (s.proc p).pagetable (a / Vm.PGSIZE)
      (Vm.PTE_R ||| Vm.PTE_U ||| Vm.PTE_W)) : Mapped s p a := by
  obtain ⟨pa, -, he⟩ := h.entry
  refine ⟨h.accessible ha, ?_⟩
  have hw : Vm.PTE_W.testBit 2 = true := by decide
  rw [he]
  refine (Vm.and_two_pow_ne_zero (k := 2)).mpr ?_
  simp only [Nat.testBit_or, hw, Bool.or_true, Bool.true_or]

/-- What a positive `sbrk` does to the process and its memory. -/
theorem sys_sbrk_pages {safe : Fin n → Int → Prop} {rest pipes : List Nat}
    {hand : List (Fin NFILE)} (h : Vm.Inv g safe rest pipes hand s)
    (hp : (s.proc p).state ≠ .unused) (h0 : 0 < d) (hd : d < 2 ^ 31) :
    wp (Vm.sys_sbrk g p d) (fun r s' => (s'.proc p).state = (s.proc p).state ∧
      (s'.proc p).pagetable = (s.proc p).pagetable ∧
      Vm.Kept s.kern.mem s'.kern.mem (s.proc p).pagetable (Vm.npages (s.proc p).sz) ∧
      (r = -1 ∧ (s'.proc p).sz = (s.proc p).sz ∧ s.kern.frees.length <
          3 * (Vm.npages ((s.proc p).sz + d).toNat - Vm.npages (s.proc p).sz) ∨
        r = (s.proc p).sz ∧ ((s'.proc p).sz : Int) = (s.proc p).sz + d ∧
          ∀ v, Vm.npages (s.proc p).sz ≤ v → v < Vm.npages (s'.proc p).sz →
            Vm.NewPage s'.kern.mem (s.proc p).pagetable v (Vm.PTE_R ||| Vm.PTE_U ||| Vm.PTE_W)))
      E s := by
  have hpt := ((h.procs p).live hp).2
  have hnew := Vm.toNat_mod_of_nonneg (h.sz_lt hpt) hd (by omega)
  rw [Vm.sys_sbrk, wp_bind, wp_get, wp_bind, Vm.growproc, wp_bind, wp_get]
  simp only [hnew]
  rw [if_pos h0, wp_bind, Vm.wp_onKern]
  refine (Vm.uvmalloc_spec (by decide) ((h.procs p).space hpt) (h.owned_space hpt)).mono ?_
  rintro r k ⟨np, hcase, -, -, -, hk, hpages⟩
  by_cases hr : r = 0
  · rw [if_pos hr]
    have hfew := (hcase.resolve_right fun h1 => by omega).2.2
    exact ⟨rfl, rfl, hk, .inl ⟨rfl, rfl, hfew⟩⟩
  · obtain ⟨hmax, rfl⟩ := hcase.resolve_left fun h1 => hr h1.1
    rw [if_neg hr, wp_bind, Vm.wp_modifyProc, wp_pure, if_neg (by decide), wp_pure,
      Vm.setProc_proc]
    refine ⟨rfl, rfl, hk, .inr ⟨rfl, ?_, hpages⟩⟩
    simp only
    omega

/-- `sbrk` for a positive number fails for want of pages, or the process has that many bytes
more. -/
theorem sys_sbrk_grows (h : Sound g p s) (h0 : 0 < d) (hd : d < 2 ^ 31) :
    wp (Vm.sys_sbrk g p d) (fun r s' => Sound g p s' ∧ (∀ a, Mapped s p a → Mapped s' p a) ∧
      (r = -1 ∧ (s'.proc p).sz = (s.proc p).sz ∧ s.kern.frees.length <
          3 * (Vm.npages ((s.proc p).sz + d).toNat - Vm.npages (s.proc p).sz) ∨
        r = (s.proc p).sz ∧ ((s'.proc p).sz : Int) = (s.proc p).sz + d ∧
          ∀ a, Vm.npages (s.proc p).sz ≤ a / Vm.PGSIZE → a < (s'.proc p).sz → Mapped s' p a)) E
      s := by
  obtain ⟨⟨safe, rest, pipes, hand, hinv⟩, hp⟩ := h
  have hpt := ((hinv.procs p).live hp).2
  refine ((Vm.sys_sbrk_spec hinv hp).and (sys_sbrk_pages hinv hp h0 hd)).mono ?_
  rintro r s' ⟨hinv', hstate, htable, hk, hcase⟩
  have hp' : (s'.proc p).state ≠ .unused := hstate ▸ hp
  refine ⟨⟨⟨safe, rest, pipes, hand, hinv'⟩, hp'⟩, fun a ha => ?_, ?_⟩
  · have hv := ((hinv.procs p).space hpt).accessible_lt (Vm.noUser_framePte _) Vm.noUser_trampPte
      ha.1
    have he := hk.entry _ hv
    rw [Mapped, Vm.Accessible, htable, he]
    exact ha
  · refine hcase.imp_right ?_
    rintro ⟨hr, hsz, hnew⟩
    refine ⟨hr, hsz, fun a hlo hhi => ?_⟩
    have hlt := Vm.div_lt_npages hhi
    have hram := hinv'.np_le ((hinv'.procs p).live hp').2
    refine mapped_of_newPage (Nat.lt_of_lt_of_le hlt hram) ?_
    rw [htable]
    exact hnew _ hlo hlt

/-- Whatever the number is, `sbrk` leaves the system in order. -/
theorem sys_sbrk_sound (h : Sound g p s) :
    wp (Vm.sys_sbrk g p d) (fun _ s' => Sound g p s') E s := by
  obtain ⟨⟨safe, rest, pipes, hand, hinv⟩, hp⟩ := h
  refine ((Vm.sys_sbrk_spec hinv hp).and_returns (Vm.sys_sbrk_pids (X := []) p d s)).mono ?_
  rintro r s' ⟨hinv', hsame⟩
  exact ⟨⟨safe, rest, pipes, hand, hinv'⟩, (hsame.alive p List.not_mem_nil).mpr hp⟩

theorem Sound.sz_le (h : Sound g p s) : (s.proc p).sz ≤ MEMORY := by
  obtain ⟨⟨safe, rest, pipes, hand, hinv⟩, hp⟩ := h
  exact hinv.sz_lt ((hinv.procs p).live hp).2

/-- A process has less memory than the machine. -/
theorem Mapped.lt (h : Mapped s p a) (hs : Sound g p s) : a < MEMORY := by
  obtain ⟨⟨safe, rest, pipes, hand, hinv⟩, hp⟩ := hs
  have hpt := ((hinv.procs p).live hp).2
  have hv := ((hinv.procs p).space hpt).accessible_lt (Vm.noUser_framePte _) Vm.noUser_trampPte h.1
  have hnp := hinv.np_le hpt
  have hram : Vm.ramPages = 32768 := rfl
  have hmem : MEMORY = 134217728 := rfl
  rw [Vm.PGSIZE] at hv
  omega

/-! ## `morecore` -/

theorem free_same {h h' : Heap} {ap : Nat} (hf : free fuel h ap = some h') :
    h'.regions = h.regions ∧ h'.top = h.top := by
  obtain ⟨q, -, rfl⟩ := Option.map_eq_some_iff.mp hf
  exact ⟨rfl, rfl⟩

/-- The heap in which a new region is recorded. -/
def Heap.record (h : Heap) (hp nu : Nat) : Heap :=
  { h with
    mem := setSize h.mem hp nu
    top := hp + UNIT * nu
    regions := ⟨hp, nu⟩ :: h.regions }

/-- What `morecore` can do. -/
theorem World.enter_cases {x : Except Vm.Panic (Int × Vm.Sys n)}
    (hm : w.enter p fuel nu x = some (w', r)) :
    ∃ r₀, x = .ok (r₀, w'.sys) ∧
      (r₀ = -1 ∧ w'.heap = w.heap ∧ r = 0 ∨
        r₀ ≠ -1 ∧ Mapped w'.sys p r₀.toNat ∧
          free fuel (w.heap.record r₀.toNat nu) (r₀.toNat + UNIT) = some w'.heap ∧
          r = w'.heap.freep) := by
  cases x with
  | error e => cases hm
  | ok x =>
      obtain ⟨r₀, sys⟩ := x
      rw [World.enter] at hm
      refine ⟨r₀, ?_⟩
      by_cases hr : r₀ = -1
      · rw [if_pos hr] at hm
        cases hm
        exact ⟨rfl, .inl ⟨hr, rfl, rfl⟩⟩
      · rw [if_neg hr] at hm
        by_cases hmap : Mapped sys p r₀.toNat ∧ Mapped sys p (r₀.toNat + UNIT - 1)
        · rw [if_pos hmap] at hm
          obtain ⟨heap, hf, he⟩ := Option.map_eq_some_iff.mp hm
          cases he
          exact ⟨rfl, .inr ⟨hr, hmap.1, hf, rfl⟩⟩
        · rw [if_neg hmap] at hm
          cases hm

/-- The memory from `sbrk` is in the process, and mapped. -/
structure Backed (g : Vm.Layout) (p : Fin n) (w : World n) : Prop where
  sound : Sound g p w.sys
  top_le : w.heap.top ≤ (w.sys.proc p).sz
  total_le : w.heap.total ≤ w.heap.top
  mapped : ∀ b ∈ w.heap.regions, ∀ x, b.addr ≤ x → x < b.stop → Mapped w.sys p x

/-- A heap with the same regions. -/
theorem Backed.congr {heap : Heap} (h : Backed g p w) (hr : heap.regions = w.heap.regions)
    (ht : heap.top = w.heap.top) : Backed g p ⟨heap, w.sys⟩ where
  sound := h.sound
  top_le := by rw [ht]; exact h.top_le
  total_le := by rw [Heap.total, hr, ht]; exact h.total_le
  mapped := by rw [hr]; exact h.mapped

/-- A part of a page is mapped if the page is. -/
theorem Mapped.of_page (h : Mapped s p a) (he : x / Vm.PGSIZE = a / Vm.PGSIZE) : Mapped s p x := by
  rw [Mapped, he]
  exact h

/-- The allocator gets the memory that it asks for, as from the ideal `sbrk`. -/
theorem Backed.enter (h : Backed g p w) (hpos : 0 < d) (hlim : d < 2 ^ 31)
    (hnu : d = (UNIT * nu : Nat))
    (hm : w.enter p fuel nu (Vm.sys_sbrk g p d w.sys) = some (w', r)) :
    Backed g p w' ∧ (r = 0 ∧ w'.heap = w.heap ∨
      ∃ gap, ¬ w.heap.total + UNIT * nu > MEMORY ∧ r = w'.heap.freep ∧
        free fuel { w.heap.grow gap nu with mem := setSize w.heap.mem (w.heap.top + gap) nu }
          (w.heap.top + gap + UNIT) = some w'.heap) := by
  obtain ⟨r₀, hsb, hcase⟩ := World.enter_cases hm
  obtain ⟨hsound, hmono, hsz⟩ := (sys_sbrk_grows h.sound hpos hlim).of_ok hsb
  have hle := h.top_le
  have hlt := h.total_le
  rcases hcase with ⟨hr₀, hheap, rfl⟩ | ⟨hr₀, hfirst, hfree, rfl⟩
  · -- nothing was mapped
    have hsame : (w'.sys.proc p).sz = (w.sys.proc p).sz := by omega
    refine ⟨⟨hsound, by rw [hheap]; omega, by rw [hheap]; exact hlt, ?_⟩, .inl ⟨rfl, hheap⟩⟩
    rw [hheap]
    exact fun b hb x h1 h2 => hmono x (h.mapped b hb x h1 h2)
  · obtain ⟨hr, hnew, hfresh⟩ := hsz.resolve_left fun hl => hr₀ hl.1
    have hhp : r₀.toNat = (w.sys.proc p).sz := by omega
    rw [hhp] at hfirst hfree
    have hend : (w'.sys.proc p).sz = (w.sys.proc p).sz + UNIT * nu := by omega
    obtain ⟨hregions, htop⟩ := free_same hfree
    have htop : w'.heap.top = (w.sys.proc p).sz + UNIT * nu := htop
    have htotal : w'.heap.total = UNIT * nu + w.heap.total := by
      rw [Heap.total, hregions]
      exact Nat.mul_add ..
    have hmem := hsound.sz_le
    have hgap : w.heap.top + ((w.sys.proc p).sz - w.heap.top) = (w.sys.proc p).sz := by omega
    refine ⟨⟨hsound, by omega, by omega, ?_⟩,
      .inr ⟨(w.sys.proc p).sz - w.heap.top, by omega, rfl, ?_⟩⟩
    · rw [hregions]
      intro b hb x h1 h2
      rcases List.mem_cons.mp hb with rfl | hb
      · have h1 : (w.sys.proc p).sz ≤ x := h1
        have h2 : x < (w.sys.proc p).sz + UNIT * nu := h2
        by_cases hpage : Vm.npages (w.sys.proc p).sz ≤ x / Vm.PGSIZE
        · exact hfresh x hpage (by omega)
        · -- the rest of the last page that the process had
          refine hfirst.of_page ?_
          rw [Vm.npages, Vm.PGSIZE] at hpage
          rw [Vm.PGSIZE]
          omega
      · exact hmono x (h.mapped b hb x h1 h2)
    · rw [Heap.grow, hgap]
      exact hfree

/-- The requests up to the limit. -/
theorem request_raised (h : nbytes ≤ LIMIT) : ∃ d nu, request nu = d ∧ raised (units nbytes) = nu ∧
    0 < nu ∧ 0 < d ∧ d < 2 ^ 31 ∧ d = (UNIT * nu : Nat) := by
  have heq := request_eq ((raised_lt_iff _).mpr h)
  have hpos := raised_pos (units nbytes)
  have hunits : UNIT * raised (units nbytes) = 16 * raised (units nbytes) := rfl
  exact ⟨_, _, rfl, rfl, hpos, by rw [heq]; omega, request_lt _, heq⟩

/-- The call gives the allocator no memory, or puts some into the list. -/
def Supplies (g : Vm.Layout) (p : Fin n) (base : Nat) (live : List Block)
    (more : Nat → World n → Option (World n × Nat)) : Prop :=
  ∀ {fuel r : Nat} {w w' : World n} {bs : List Block}, Backed g p w → Inv base w.heap live bs →
    more fuel w = some (w', r) → Backed g p w' ∧ (r = 0 ∧ w'.heap = w.heap ∨
      r ≠ 0 ∧ r = w'.heap.freep ∧ ∃ bs', Inv base w'.heap live bs')

theorem supplies_morecore (hbase : 0 < base) (hn : nbytes ≤ LIMIT) :
    Supplies g p base live fun fuel w => w.morecore g p fuel (units nbytes) := by
  intro fuel r w w' bs h hi hm
  obtain ⟨d, nu, hd, hnu, hpos, hd0, hlim, heq⟩ := request_raised hn
  have hm : w.enter p fuel (raised (units nbytes))
      (Vm.sys_sbrk g p (request (raised (units nbytes))) w.sys) = some (w', r) := hm
  rw [hnu, hd] at hm
  obtain ⟨hb, hcase⟩ := h.enter hd0 hlim heq hm
  refine ⟨hb, hcase.imp_right ?_⟩
  rintro ⟨gap, htotal, rfl, hfree⟩
  obtain ⟨bs', hinv, -, -⟩ := (hi.grow gap hpos (Nat.le_of_not_gt htotal)).free hfree
  exact ⟨hinv.freep_ne hbase, rfl, bs', hinv⟩

/-! ## `malloc` -/

theorem take_same (h : Heap) (nunits prevp q : Nat) :
    (take h nunits prevp q).1.regions = h.regions ∧ (take h nunits prevp q).1.top = h.top := by
  rw [take]
  split <;> exact ⟨rfl, rfl⟩

theorem World.mallocLoop_ok (hn : 0 < nunits) (hmore : Supplies g p base live more) (fuel : Nat) :
    ∀ {w : World n} {bs : List Block} {prevp r : Nat}, Backed g p w → Inv base w.heap live bs →
    prevp ∈ (ring base bs).map Block.addr →
    World.mallocLoop more nunits fuel w prevp (link w.heap.mem prevp) = some (w', r) →
    Backed g p w' ∧ Result base nunits live w'.heap r := by
  induction fuel with
  | zero => exact fun _ _ _ hm => by cases hm
  | succ fuel ih =>
      intro w bs prevp r h hi hprev hm
      have hnext : link w.heap.mem prevp ∈ (ring base bs).map Block.addr :=
        hi.list.links.next_mem hprev
      rw [World.mallocLoop] at hm
      split at hm
      · rename_i hsize
        obtain ⟨bs', hinv⟩ := hi.take hprev hn hsize
        have hne := take_ne_zero w.heap nunits prevp (link w.heap.mem prevp)
        obtain ⟨hregions, htop⟩ := take_same w.heap nunits prevp (link w.heap.mem prevp)
        cases hm
        exact ⟨h.congr hregions htop, .block hne hinv⟩
      · split at hm
        · split at hm
          · cases hm
          · rename_i w₁ r₁ heq
            rcases hmore h hi heq with ⟨hb, ⟨rfl, hsame⟩ | ⟨hne, rfl, bs', hinv⟩⟩
            · rw [if_pos rfl] at hm
              cases hm
              exact ⟨hb, .null (hsame ▸ hi)⟩
            · rw [if_neg hne] at hm
              exact ih hb hinv hinv.list.freep hm
        · exact ih h hi hnext hm

/-- `malloc` returns a block that is mapped. -/
theorem World.malloc_ok (h : Backed g p w) (hg : Good base ⟨w.heap, live⟩) (hbase : 0 < base)
    (hn : nbytes ≤ LIMIT) (hm : w.malloc g p base fuel nbytes = some (w', r)) :
    Backed g p w' ∧ Result base (units nbytes) live w'.heap r := by
  rw [World.malloc] at hm
  cases hg with
  | start hfreep hregions hlive htop =>
      have hfreep : w.heap.freep = 0 := hfreep
      have hlive : live = [] := hlive
      have hinv := Inv.start base hregions htop
      rw [if_pos hfreep] at hm
      subst hlive
      have hb : Backed g p ⟨{ w.heap with
          mem := setSize (setPtr w.heap.mem base base) base 0, freep := base }, w.sys⟩ :=
        h.congr rfl rfl
      exact World.mallocLoop_ok (units_pos nbytes) (supplies_morecore hbase hn) fuel hb hinv
        hinv.list.freep hm
  | run hinv =>
      rw [if_neg (hinv.freep_ne hbase)] at hm
      exact World.mallocLoop_ok (units_pos nbytes) (supplies_morecore hbase hn) fuel h hinv
        hinv.list.freep hm

/-- The runs with small requests keep the allocator in order. -/
theorem Reach.ok (hbase : 0 < base) (h : Reach g p base w live) :
    Backed g p w ∧ Good base ⟨w.heap, live⟩ := by
  induction h with
  | start hs hle =>
      refine ⟨⟨hs, hle, Nat.zero_le _, fun b hb => by cases hb⟩, .start rfl rfl rfl ?_⟩
      exact Nat.le_add_right _ _
  | malloc _ hn hm ih =>
      obtain ⟨hb, hres⟩ := World.malloc_ok ih.1 ih.2 hbase hn hm
      refine ⟨hb, ?_⟩
      cases hres with
      | null hinv => exact .run hinv
      | block hne hinv =>
          rw [if_neg hne]
          exact .run hinv
  | free _ hmem hf ih =>
      obtain ⟨hregions, htop⟩ := free_same hf
      refine ⟨ih.1.congr hregions htop, ?_⟩
      cases ih.2 with
      | start _ _ hlive _ =>
          exact absurd (hlive.subst (motive := fun l => _ ∈ l) hmem) List.not_mem_nil
      | run hinv =>
          obtain ⟨bs', hinv', -, -⟩ := (hinv.perm (List.perm_cons_erase hmem)).free hf
          exact .run hinv'
  | write hd _ hmem hlt hstop ih =>
      refine ⟨ih.1.congr rfl rfl, ?_⟩
      cases ih.2 with
      | start _ _ hlive _ =>
          exact absurd (hlive.subst (motive := fun l => _ ∈ l) hmem) List.not_mem_nil
      | run hinv => exact .run (hinv.write hmem hlt hstop hd)
  | others _ hs hsz hmap ih =>
      obtain ⟨hb, hg⟩ := ih
      exact ⟨⟨hs, Nat.le_trans hb.top_le hsz, hb.total_le,
        fun b hmem x h1 h2 => hmap x (hb.mapped b hmem x h1 h2)⟩, hg⟩

/-- The bytes of a block from `malloc`. -/
theorem Result.mapped (h : Result base (units nbytes) live w.heap r) (hb : Backed g p w)
    (hr : r ≠ 0) (hx : r ≤ x) (hx' : x < r + nbytes) : Mapped w.sys p x := by
  have hle := le_units nbytes
  have hcover := (h.fresh hr hx (by omega)).1
  obtain ⟨e, he, hin⟩ := Extent.cover_pos.mp (by rw [← cover, hcover]; exact Nat.one_pos)
  obtain ⟨b, hmem, rfl⟩ := List.mem_map.mp he
  obtain ⟨h1, h2⟩ := Extent.has_iff.mp hin
  exact hb.mapped b hmem x h1 h2

/-! ## The requests -/

/-- The kernel was asked for the bytes of the block that was recorded, and gave them. -/
def Exact (w w' : World n) (p : Fin n) (b : Block) : Prop :=
  0 < request b.size ∧ request b.size = (UNIT * b.size : Nat) ∧
    ((w'.sys.proc p).sz : Int) = (w.sys.proc p).sz + request b.size

theorem World.morecore_records {b : Block} (hm : w.morecore g p fuel nunits = some (w', r))
    (hrec : w'.heap.regions = b :: w.heap.regions) :
    b.size = raised nunits ∧ ∃ r₀, r₀ ≠ -1 ∧
      Vm.sys_sbrk g p (request b.size) w.sys = .ok (r₀, w'.sys) := by
  obtain ⟨r₀, hsb, hcase⟩ := World.enter_cases
    (x := Vm.sys_sbrk g p (request (raised nunits)) w.sys) hm
  rcases hcase with ⟨-, hheap, -⟩ | ⟨hr₀, -, hfree, -⟩
  · rw [hheap] at hrec
    exact absurd (congrArg List.length hrec) (by rw [List.length_cons]; omega)
  · have hregions := (free_same hfree).1
    have hb : b = ⟨r₀.toNat, raised nunits⟩ := (List.cons.inj (hrec.symm.trans hregions)).1
    subst hb
    exact ⟨rfl, r₀, hr₀, hsb⟩

theorem World.mallocLoop_sound
    (hmore : ∀ {fuel w w' r}, Sound g p w.sys → more fuel w = some (w', r) → Sound g p w'.sys)
    (fuel : Nat) : ∀ {w : World n} {prevp q r : Nat}, Sound g p w.sys →
    World.mallocLoop more nunits fuel w prevp q = some (w', r) → Sound g p w'.sys := by
  induction fuel with
  | zero => exact fun _ hm => by cases hm
  | succ fuel ih =>
      intro w prevp q r h hm
      rw [World.mallocLoop] at hm
      split at hm
      · cases hm
        exact h
      · split at hm
        · split at hm
          · cases hm
          · rename_i w₁ r₁ heq
            have h₁ := hmore h heq
            split at hm
            · cases hm
              exact h₁
            · exact ih h₁ hm
        · exact ih h hm

theorem World.malloc_sound (h : Sound g p w.sys)
    (hm : w.malloc g p base fuel nbytes = some (w', r)) : Sound g p w'.sys := by
  rw [World.malloc] at hm
  refine World.mallocLoop_sound (fun {fuel w w' r} hs heq => ?_) fuel (by exact h) hm
  obtain ⟨r₀, hsb, -⟩ := World.enter_cases
    (x := Vm.sys_sbrk g p (request (raised (units nbytes))) w.sys) heq
  generalize request (raised (units nbytes)) = d at hsb
  exact (sys_sbrk_sound hs).of_ok hsb

/-- `malloc` asks the kernel for what it records, and a block from it is mapped, exactly for the
sizes up to the limit. -/
theorem requests_exact_iff (g : Vm.Layout) (p : Fin n) {base : Nat} (hbase : 0 < base) :
    (∀ {w w' : World n} {b : Block} {nbytes fuel r : Nat}, Sound g p w.sys →
      w.morecore g p fuel (units nbytes) = some (w', r) →
      w'.heap.regions = b :: w.heap.regions → (Exact w w' p b ↔ nbytes ≤ LIMIT)) ∧
    ∀ {w w' : World n} {live : List Block} {nbytes fuel r : Nat}, Reach g p base w live →
      w.malloc g p base fuel nbytes = some (w', r) → r ≠ 0 →
      ((∀ x, r ≤ x → x < r + nbytes → Mapped w'.sys p x) ↔ nbytes ≤ LIMIT) := by
  constructor
  · intro w w' b nbytes fuel r hs hm hrec
    obtain ⟨hsize, r₀, hr₀, hsb⟩ := World.morecore_records hm hrec
    have hlim := raised_lt_iff nbytes
    rw [← hsize] at hlim
    have hlt := request_lt b.size
    constructor
    · intro hex
      have heq := hex.2.1
      exact hlim.mp (by omega)
    · intro hn
      have heq := request_eq (hlim.mpr hn)
      have hpos := raised_pos (units nbytes)
      rw [← hsize] at hpos
      have hunits : UNIT * b.size = 16 * b.size := rfl
      have h0 : 0 < request b.size := by omega
      refine ⟨h0, heq, ?_⟩
      obtain ⟨d, hd⟩ : ∃ d, request b.size = d := ⟨_, rfl⟩
      rw [hd] at hsb h0 hlt ⊢
      obtain ⟨-, -, hcase⟩ := (sys_sbrk_grows hs h0 hlt).of_ok hsb
      exact (hcase.resolve_left fun hl => hr₀ hl.1).2.1
  · intro w w' live nbytes fuel r hreach hm hr
    obtain ⟨hb, hg⟩ := hreach.ok hbase
    constructor
    · intro hmap
      have hlim : LIMIT = 2147483616 := rfl
      have hmem : MEMORY = 134217728 := rfl
      by_contra hbig
      have hlast := (hmap (r + nbytes - 1) (by omega) (by omega)).lt (World.malloc_sound hb.sound hm)
      omega
    · intro hn x hx hx'
      obtain ⟨hb', hres⟩ := World.malloc_ok hb hg hbase hn hm
      exact hres.mapped hb' hr hx hx'

/-! ## A small request and the largest one -/

/-- The allocator of a program that has not called it, with `base` at 1024. -/
def fresh : Heap := ⟨fun _ => ⟨0, 0⟩, 0, 1040, []⟩

/-- `sbrk` is called with 16, the process has 16 bytes more, and the second page of the block
that the program gets is not mapped. -/
theorem largest_request : request (raised (units (2 ^ 32 - 1))) = 16 ∧ ∃ taken s₀ w r,
    Vm.boot Vm.smallLayout (Vm.zeroed NPROC fun _ => Vm.Page.fill 0) = .ok (taken, s₀) ∧
      World.malloc Vm.smallLayout 0 1024 8 ⟨fresh, s₀⟩ (2 ^ 32 - 1) = some (w, r) ∧ r ≠ 0 ∧
      ¬ Mapped w.sys 0 (r + Vm.PGSIZE) ∧ (w.sys.proc 0).sz = (s₀.proc 0).sz + 16 := by
  obtain ⟨taken, s₀, hb, -, hm⟩ : ∃ taken s₀, Vm.bootZeroed Vm.smallLayout = .ok (taken, s₀) ∧
      Vm.Good Vm.smallLayout (fun _ _ => False) taken s₀ ∧
      (World.malloc Vm.smallLayout 0 1024 8 ⟨fresh, s₀⟩ (2 ^ 32 - 1)).any fun x => x.2 ≠ 0 ∧
        ¬ Mapped x.1.sys 0 (x.2 + Vm.PGSIZE) ∧ (x.1.sys.proc 0).sz = (s₀.proc 0).sz + 16 :=
    Vm.exists_boot_of_check (by decide +kernel)
  obtain ⟨⟨w, r⟩, hm, hx⟩ := (Option.any_eq_true _ _).mp hm
  exact ⟨by decide +kernel, taken, s₀, w, r, hb, hm, of_decide_eq_true hx⟩

/-- A memory of sixty-four pages, in which the 64 KiB can be had that `morecore` asks for. -/
def roomyLayout : Vm.Layout :=
  { Vm.smallLayout with
    ends := Vm.PHYSTOP - 64 * Vm.PGSIZE, kernbase_le := by decide, room := by decide }

/-- `morecore` in a process of one page, when there are pages enough. -/
theorem World.morecore_first {h h' : Heap} (hs : Sound g p s) (hsz : (s.proc p).sz = Vm.PGSIZE)
    (hfree : 48 ≤ s.kern.frees.length) (hd : request (raised nu) = d) (h0 : 16 ≤ d)
    (hd' : d ≤ 65536)
    (hf : free fuel (h.record Vm.PGSIZE (raised nu)) (Vm.PGSIZE + UNIT) = some h') :
    ∃ s', World.morecore g p fuel ⟨h, s⟩ nu = some (⟨h', s'⟩, h'.freep) := by
  have hpg : Vm.PGSIZE = 4096 := rfl
  obtain ⟨r, s', hsb, -, -, hcase⟩ :=
    (sys_sbrk_grows (E := fun _ => False) (d := d) hs (by omega) (by omega)).returns
  rw [hsz] at hcase
  -- at most sixteen pages are new, and each takes three of the free ones at most
  have hpages : Vm.npages ((Vm.PGSIZE : Nat) + d).toNat ≤ 17 ∧ Vm.npages Vm.PGSIZE = 1 := by
    rw [Vm.npages, Vm.npages, hpg]
    omega
  obtain ⟨rfl, hsz', hnew⟩ := hcase.resolve_left fun hl => by omega
  have hmap : ∀ x, Vm.PGSIZE ≤ x → x < Vm.PGSIZE + 16 → Mapped s' p x := fun x h1 h2 =>
    hnew x (by rw [hpages.2, hpg]; omega) (by omega)
  refine ⟨s', ?_⟩
  rw [World.morecore, hd, hsb, World.enter, if_neg (by decide),
    if_pos ⟨hmap _ (by decide) (by decide), hmap _ (by decide) (by decide)⟩]
  exact congrArg (Option.map _) hf

/-- The heap in the loop of the first call. -/
def started : Heap :=
  { fresh with mem := setSize (setPtr fresh.mem 1024 1024) 1024 0, freep := 1024 }

variable (more) in
/-- A block that fits comes from the first call of `morecore`. -/
theorem World.mallocLoop_first {h h' : Heap} (hq : (h.mem h.freep).ptr = h.freep)
    (hz : (h.mem h.freep).size < nunits) (hm : more (fuel + 1) ⟨h, s⟩ = some (⟨h', s'⟩, h'.freep))
    (hr : h'.freep ≠ 0) (hfit : nunits ≤ (h'.mem (h'.mem h'.freep).ptr).size) :
    ∃ w r, World.mallocLoop more nunits (fuel + 2) ⟨h, s⟩ h.freep (h.mem h.freep).ptr =
      some (w, r) ∧ r ≠ 0 := by
  have hne := take_ne_zero h' nunits h'.freep (h'.mem h'.freep).ptr
  refine ⟨⟨(take h' nunits h'.freep (h'.mem h'.freep).ptr).1, s'⟩, _, ?_, hne⟩
  rw [hq, World.mallocLoop, if_neg (Nat.not_le.mpr hz), if_pos rfl, hm]
  exact (if_neg hr).trans (if_pos hfit)

/-- The first call for one of the two sizes gets its block. -/
theorem World.malloc_first (hs : Sound g p s) (hsz : (s.proc p).sz = Vm.PGSIZE)
    (hfree : 48 ≤ s.kern.frees.length) (hn : nbytes ∈ [100, 2 ^ 32 - 1]) : ∃ w r w₁ r₁ b,
      World.malloc g p 1024 8 ⟨fresh, s⟩ nbytes = some (w, r) ∧ r ≠ 0 ∧
      World.morecore g p 7 ⟨started, s⟩ (units nbytes) = some (w₁, r₁) ∧
      w₁.heap.regions = [b] := by
  have hcheck : ∀ k ∈ [100, 2 ^ 32 - 1], 16 ≤ request (raised (units k)) ∧
      request (raised (units k)) ≤ 65536 ∧
      (free 7 (started.record Vm.PGSIZE (raised (units k))) (Vm.PGSIZE + UNIT)).any fun h =>
        h.freep ≠ 0 ∧ units k ≤ (h.mem (h.mem h.freep).ptr).size := by decide
  obtain ⟨h0, hd, hany⟩ := hcheck nbytes hn
  obtain ⟨h', hf, hx⟩ := (Option.any_eq_true _ _).mp hany
  obtain ⟨hr, hfit⟩ := of_decide_eq_true hx
  obtain ⟨s', hm⟩ := World.morecore_first hs hsz hfree rfl h0 hd hf
  obtain ⟨w, r, hw, hr⟩ := World.mallocLoop_first
    (fun fuel w => w.morecore g p fuel (units nbytes)) (by decide) (units_pos nbytes) hm hr hfit
  exact ⟨w, r, _, _, _, hw, hr, hm, (free_same hf).1⟩

/-- The first process asks for a small block and for the largest one. -/
theorem requests_exact_iff_boot : ∃ taken s₀, Vm.bootZeroed roomyLayout = .ok (taken, s₀) ∧
    ∀ nbytes ∈ [100, 2 ^ 32 - 1], ∃ w r w₁ r₁ b,
      World.malloc roomyLayout 0 1024 8 ⟨fresh, s₀⟩ nbytes = some (w, r) ∧ r ≠ 0 ∧
      ((∀ x, r ≤ x → x < r + nbytes → Mapped w.sys 0 x) ↔ nbytes = 100) ∧
      World.morecore roomyLayout 0 7 ⟨started, s₀⟩ (units nbytes) = some (w₁, r₁) ∧
      w₁.heap.regions = [b] ∧ (Exact ⟨started, s₀⟩ w₁ 0 b ↔ nbytes = 100) := by
  obtain ⟨taken, s₀, hb, ⟨pipes, hinv⟩, hst, hsz, hlinks⟩ : ∃ taken s₀,
      Vm.bootZeroed roomyLayout = .ok (taken, s₀) ∧
      Vm.Good roomyLayout (fun _ _ => False) taken s₀ ∧ (s₀.proc 0).state ≠ .unused ∧
      (s₀.proc 0).sz = Vm.PGSIZE ∧
      ∀ i : Fin 48, (fun k : Nat => (s₀.kern.mem k).getLe 0 8)^[i] s₀.kern.free ≠ 0 :=
    Vm.exists_boot_of_check (by decide +kernel)
  have hs : Sound roomyLayout 0 s₀ := ⟨⟨_, _, _, _, hinv⟩, hst⟩
  have hreach : Reach roomyLayout 0 1024 ⟨fresh, s₀⟩ [] :=
    .start hs (show 1024 + UNIT + 0 ≤ _ by rw [hsz]; decide)
  obtain ⟨hexact, hmapped⟩ := requests_exact_iff roomyLayout (0 : Fin NPROC)
    (show 0 < 1024 by decide)
  refine ⟨taken, s₀, hb, fun nbytes hn => ?_⟩
  have hlim : nbytes ≤ LIMIT ↔ nbytes = 100 := by
    have hL : LIMIT = 2147483616 := rfl
    simp only [List.mem_cons, List.not_mem_nil, or_false] at hn
    omega
  obtain ⟨w, r, w₁, r₁, b, hm, hr, hm₁, hrec⟩ :=
    World.malloc_first hs hsz (hinv.owned.chain.le_length hlinks) hn
  exact ⟨w, r, w₁, r₁, b, hm, hr, (hmapped hreach hm hr).trans hlim, hm₁, hrec,
    (hexact hs hm₁ hrec).trans hlim⟩

end Xv6.Malloc
