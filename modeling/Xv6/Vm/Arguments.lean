import Xv6.Lib.Packing
import Xv6.Vm.Sbrk

/-!
# The arguments on the stack of a new program

`exec` pushes the argument strings and then the array of pointers to them, each to the next
address below that is a multiple of 16.  All of it goes to one page, the one above the guard
page.  What was pushed stays, since every later store is further down.  `Packing` says that the
strings and the array fit in the page whenever they fit at all with that alignment.
-/

namespace Xv6.Vm

open Hoare FreeList Packing

/-- Words of user memory. -/
def userWords (m : Nat → Page) (p a n : Nat) : List Nat :=
  (List.range n).map fun i => Bytes.ofLe (userBytes m p (a + 8 * i) 8)

variable {g : Layout} {s s₁ s' : Machine} {E : Panic → Prop} {m : Nat → Page}
variable {p v w a n sp sp' va sz : Nat} {argv ustack : List Nat} {m₀ : Nat → Page}
  {blocks : List (Nat × Nat)}

/-! ## Stores to the stack page -/

/-- Only addresses of the page `v` below `sp` were written. -/
structure WritesBelow (s s' : Machine) (p v sp : Nat) : Prop where
  page : ∀ a ≠ PTE2PA (entry s.mem p v), s'.mem a = s.mem a
  above : ∀ off, sp ≤ v * PGSIZE + off →
    byteOf s'.mem (PTE2PA (entry s.mem p v), off) = byteOf s.mem (PTE2PA (entry s.mem p v), off)

theorem WritesBelow.refl (s : Machine) (p v sp : Nat) : WritesBelow s s p v sp :=
  ⟨fun _ _ => rfl, fun _ _ => rfl⟩

theorem WritesBelow.mono (h : WritesBelow s s' p v sp) (hle : sp ≤ sp') :
    WritesBelow s s' p v sp' :=
  ⟨h.page, fun off hoff => h.above off (hle.trans hoff)⟩

section

variable (hu : UserPages s.mem p) (ha : Accessible s.mem p v)
include hu ha

theorem WritesBelow.tbl_same (h : WritesBelow s s' p v sp) :
    ∀ q ∈ tbl s.mem 2 p, s'.mem q = s.mem q := by
  intro q hq
  refine h.page q ?_
  rintro rfl
  exact hu.apart v ha hq

theorem WritesBelow.entry_eq (h : WritesBelow s s' p v sp) : entry s'.mem p w = entry s.mem p w :=
  entry_congr (h.tbl_same hu ha)

theorem WritesBelow.accessible (h : WritesBelow s s' p v sp) : Accessible s'.mem p v := by
  rw [Accessible, h.entry_eq hu ha]
  exact ha

theorem WritesBelow.trans (h : WritesBelow s s₁ p v sp) (h' : WritesBelow s₁ s' p v sp')
    (hle : sp' ≤ sp) : WritesBelow s s' p v sp := by
  have he := h.entry_eq hu ha (w := v)
  obtain ⟨h1, h2⟩ := h'
  rw [he] at h1 h2
  refine ⟨fun a hne => (h1 a hne).trans (h.page a hne), fun off hoff => ?_⟩
  exact (h2 off (by omega)).trans (h.above off hoff)

theorem WritesBelow.userBytes_eq (h : WritesBelow s s' p v sp) (hva : sp ≤ va)
    (hlo : v * PGSIZE ≤ va) (hhi : va + n ≤ (v + 1) * PGSIZE) :
    userBytes s'.mem p va n = userBytes s.mem p va n := by
  apply List.map_congr_left
  intro i hi
  have hi := List.mem_range.mp hi
  have hpage : (va + i) / PGSIZE = v := by
    rw [PGSIZE] at hlo hhi ⊢
    omega
  have hoff := Nat.div_add_mod (va + i) PGSIZE
  rw [hpage, Nat.mul_comm] at hoff
  rw [userByte, userByte, place, place, h.entry_eq hu ha, hpage]
  exact h.above _ (by omega)

/-- A copy that stays inside the page. -/
theorem copyout_page {src : List UInt8} (hlo : v * PGSIZE ≤ va)
    (hhi : va + src.length ≤ (v + 1) * PGSIZE) :
    wp (copyout p va src) (fun r s' => r = 0 ∧ WritesBelow s s' p v (va + src.length) ∧
      userBytes s'.mem p va src.length = src) E s := by
  have hpage : ∀ i < src.length, (va + i) / PGSIZE = v := by
    intro i hi
    rw [PGSIZE] at hlo hhi ⊢
    omega
  refine (copyoutLoop_stops hu (Nat.le_refl _)).mono ?_
  rintro r s' ⟨k, hstop, hst⟩
  obtain ⟨rfl, rfl⟩ : r = 0 ∧ k = src.length := by
    rcases hstop.why with h | ⟨-, hk, hbad, -⟩
    · exact h
    · rw [hpage k hk] at hbad
      exact absurd ha hbad
  rw [List.take_length] at hst
  have hw : WritesBelow s s' p v (va + src.length) := by
    refine ⟨fun a hne => hst.page_eq fun i hi => ?_, fun off hoff => ?_⟩
    · rw [hpage i hi]
      exact hne.symm
    · refine hst.outside _ fun i hi he => ?_
      have hmod : off = (va + i) % PGSIZE := congrArg Prod.snd he
      have hdiv := Nat.div_add_mod (va + i) PGSIZE
      rw [hpage i hi, Nat.mul_comm] at hdiv
      omega
  refine ⟨rfl, hw, List.ext_getElem (by simp) fun i hi hi' => ?_⟩
  have hin := hst.inside i hi'
  simp only [userBytes, List.getElem_map, List.getElem_range]
  rw [userByte, place, hw.entry_eq hu ha]
  exact hin

end

/-! ## The pushes -/

/-- The sizes of the strings. -/
def textSizes (m : Nat → Page) (argv : List Nat) : List Nat :=
  argv.map fun a => (cString (m a)).length + 1

theorem pushDown_eq (hsp : 16 ∣ sp) (hn : n ≤ sp) (hlt : sp < 2 ^ 64) :
    pushDown sp n = sp - room 16 n := by
  obtain ⟨c, rfl⟩ := hsp
  rw [pushDown, room]
  omega

/-- The strings are where they were pushed. -/
def Strings (m m₀ : Nat → Page) (p : Nat) (blocks : List (Nat × Nat)) (argv : List Nat) : Prop :=
  List.Forall₂ (fun b a => userBytes m p b.1 b.2 = cString (m₀ a) ++ [0]) blocks argv

theorem Strings.congr {m₁ : Nat → Page} (h : Strings m m₁ p blocks argv)
    (he : ∀ a ∈ argv, m₁ a = m₀ a) :
    Strings m m₀ p blocks argv := by
  induction h with
  | nil => exact .nil
  | cons hb _ ih =>
      refine .cons ?_ (ih fun a ha => he a (List.mem_cons_of_mem _ ha))
      rw [← he _ List.mem_cons_self]
      exact hb

theorem textSizes_congr {m' : Nat → Page} (h : ∀ a ∈ argv, m' a = m a) :
    textSizes m' argv = textSizes m argv :=
  List.map_congr_left fun a ha => by rw [h a ha]

/-- The loop of `exec` over the arguments. -/
theorem pushArgs_full (hu : UserPages s.mem p) (ha : Accessible s.mem p v) (hv : 0 < v)
    (hcount : ustack.length + argv.length < MAXARG)
    (hne : ∀ a ∈ argv, a ≠ PTE2PA (entry s.mem p v))
    (hlen : ∀ a ∈ argv, (cString (s.mem a)).length < PGSIZE)
    (hlo : v * PGSIZE ≤ sp) (hhi : sp ≤ (v + 1) * PGSIZE) (hal : 16 ∣ sp) :
    wp (pushArgs p (v * PGSIZE) argv sp ustack) (fun x s' => WritesBelow s s' p v sp ∧
      (x = none ∧ sp < v * PGSIZE + total 16 (textSizes s.mem argv) ∨
        v * PGSIZE + total 16 (textSizes s.mem argv) ≤ sp ∧
        x = some (sp - total 16 (textSizes s.mem argv),
          ustack ++ (push 16 sp (textSizes s.mem argv)).map Prod.fst) ∧
        Strings s'.mem s.mem p (push 16 sp (textSizes s.mem argv)) argv)) E s := by
  induction argv generalizing s sp ustack with
  | nil =>
      have hnil : textSizes s.mem [] = [] := rfl
      rw [hnil, total_nil, push, pushArgs, wp_pure, List.map_nil, List.append_nil, Nat.sub_zero,
        Nat.add_zero]
      exact ⟨.refl _ _ _ _, .inr ⟨hlo, rfl, .nil⟩⟩
  | cons arg argv ih =>
      have hmax := ha.1
      have hmaxva : MAXVA = 2 ^ 38 := rfl
      have hpg : PGSIZE = 4096 := rfl
      have hv4 : PGSIZE ≤ v * PGSIZE := Nat.le_mul_of_pos_left _ hv
      have htext := hlen arg List.mem_cons_self
      rw [List.length_cons] at hcount
      rw [Nat.succ_mul] at hhi
      have hsizes : textSizes s.mem (arg :: argv) =
          ((cString (s.mem arg)).length + 1) :: textSizes s.mem argv := rfl
      rw [pushArgs, if_neg (by omega), wp_bind, wp_get, hsizes, total_cons, push]
      simp only
      obtain ⟨text, hstring⟩ : ∃ text, cString (s.mem arg) = text := ⟨_, rfl⟩
      rw [hstring] at htext ⊢
      have hroom : text.length + 1 ≤ room 16 (text.length + 1) := le_room (by decide) _
      rw [pushDown_eq hal (by omega) (by omega)]
      split
      next hlow => exact ⟨.refl _ _ _ _, .inl ⟨rfl, by omega⟩⟩
      next hlow =>
      have hsrc : (text ++ [0]).length = text.length + 1 := by simp
      rw [wp_bind]
      have hin : sp - room 16 (text.length + 1) + (text ++ [0]).length ≤ (v + 1) * PGSIZE := by
        rw [hsrc, Nat.succ_mul]
        omega
      refine (copyout_page (E := E) hu ha (Nat.not_lt.mp hlow) hin).mono ?_
      rintro r s₁ ⟨rfl, hw, hbytes⟩
      rw [if_neg (by decide)]
      rw [hsrc] at hw hbytes
      have hsame : ∀ a ∈ argv, s₁.mem a = s.mem a := fun a hm =>
        hw.page a (hne a (List.mem_cons_of_mem _ hm))
      have hu₁ := hu.congr (hw.tbl_same hu ha)
      have ha₁ := hw.accessible hu ha
      refine (ih hu₁ ha₁ (by rw [List.length_append]; simp; omega) (fun a hm => ?_)
        (fun a hm => ?_) (by omega) (by rw [Nat.succ_mul]; omega)
        (Nat.dvd_sub hal (dvd_room 16 _))).mono ?_
      · rw [hw.entry_eq hu ha]
        exact hne a (List.mem_cons_of_mem _ hm)
      · rw [hsame a hm]
        exact hlen a (List.mem_cons_of_mem _ hm)
      rw [textSizes_congr hsame]
      rintro x s' ⟨hw', hx⟩
      refine ⟨(hw.trans hu ha hw' (by omega)).mono (by omega), ?_⟩
      rcases hx with ⟨rfl, hlt⟩ | ⟨hle, rfl, hstr⟩
      · exact .inl ⟨rfl, by omega⟩
      · refine .inr ⟨by omega, ?_, .cons ?_ (hstr.congr hsame)⟩
        · rw [Nat.sub_sub, List.append_assoc]
          rfl
        · rw [hw'.userBytes_eq hu₁ ha₁ (Nat.le_refl _) (by omega) (by rw [Nat.succ_mul]; omega)]
          rw [hstring]
          exact hbytes

/-- The array of pointers. -/
theorem pushPointers_full (hu : UserPages s.mem p) (ha : Accessible s.mem p v) (hv : 0 < v)
    (hcount : ustack.length < MAXARG) (hlo : v * PGSIZE ≤ sp) (hhi : sp ≤ (v + 1) * PGSIZE)
    (hal : 16 ∣ sp) :
    wp (pushPointers p (v * PGSIZE) sp ustack) (fun x s' => WritesBelow s s' p v sp ∧
      (x = none ∧ sp < v * PGSIZE + room 16 (8 * (ustack.length + 1)) ∨
        v * PGSIZE + room 16 (8 * (ustack.length + 1)) ≤ sp ∧
        x = some (sp - room 16 (8 * (ustack.length + 1))) ∧
        userBytes s'.mem p (sp - room 16 (8 * (ustack.length + 1))) (8 * (ustack.length + 1)) =
          (ustack ++ [0]).flatMap (Bytes.toLe 8))) E s := by
  have hmax := ha.1
  have hmaxva : MAXVA = 2 ^ 38 := rfl
  have hpg : PGSIZE = 4096 := rfl
  have hmaxarg : MAXARG = 32 := rfl
  have hv4 : PGSIZE ≤ v * PGSIZE := Nat.le_mul_of_pos_left _ hv
  rw [Nat.succ_mul] at hhi
  have hroom : 8 * (ustack.length + 1) ≤ room 16 (8 * (ustack.length + 1)) :=
    le_room (by decide) _
  have hsrc : ((ustack ++ [0]).flatMap (Bytes.toLe 8)).length = 8 * (ustack.length + 1) := by
    simp [List.length_flatMap]
    omega
  rw [pushPointers, Nat.mul_comm (ustack.length + 1) 8, pushDown_eq hal (by omega) (by omega)]
  split
  next hlow => exact ⟨.refl _ _ _ _, .inl ⟨rfl, by omega⟩⟩
  next hlow =>
  generalize (ustack ++ [0]).flatMap (Bytes.toLe 8) = src at hsrc ⊢
  rw [wp_bind]
  refine (copyout_page (E := E) hu ha (Nat.not_lt.mp hlow)
    (by rw [hsrc, Nat.succ_mul v]; omega)).mono ?_
  rintro r s' ⟨rfl, hw, hbytes⟩
  rw [if_neg (by decide), wp_pure]
  rw [hsrc] at hw hbytes
  exact ⟨hw.mono (by omega), .inr ⟨by omega, rfl, hbytes⟩⟩

/-! ## The whole stack -/

theorem userWords_succ : userWords m p a (n + 1) =
    Bytes.ofLe (userBytes m p a 8) :: userWords m p (a + 8) n := by
  rw [userWords, List.range_succ_eq_map, List.map_cons, List.map_map]
  refine congrArg _ (List.map_congr_left fun i _ => ?_)
  rw [Function.comp_apply, Nat.add_assoc, Nat.mul_succ, Nat.add_comm (8 * i)]

/-- Words read back from their bytes. -/
theorem userWords_eq {ws : List Nat} (hlt : ∀ w ∈ ws, w < 2 ^ 64)
    (h : userBytes m p a (8 * ws.length) = ws.flatMap (Bytes.toLe 8)) :
    userWords m p a ws.length = ws := by
  induction ws generalizing a with
  | nil => rfl
  | cons w ws ih =>
      rw [List.length_cons, Nat.mul_succ, Nat.add_comm, userBytes_add, List.flatMap_cons] at h
      obtain ⟨h1, h2⟩ := List.append_inj h (by rw [length_userBytes, Bytes.length_toLe])
      rw [List.length_cons, userWords_succ, h1, Bytes.ofLe_toLe,
        Nat.mod_eq_of_lt (show w < 256 ^ 8 from hlt w List.mem_cons_self),
        ih (fun x hx => hlt x (List.mem_cons_of_mem _ hx)) h2]

/-- The sizes of all that is pushed. -/
def pushSizes (m : Nat → Page) (argv : List Nat) : List Nat :=
  textSizes m argv ++ [8 * (argv.length + 1)]

/-- The program finds its arguments at `sp`: pointers to copies of the strings, and a zero. -/
def Stacked (m m₀ : Nat → Page) (p lo hi sp : Nat) (argv : List Nat) : Prop :=
  ∃ blocks : List (Nat × Nat), userWords m p sp (argv.length + 1) = blocks.map Prod.fst ++ [0] ∧
    Strings m m₀ p blocks argv ∧ Packed 16 lo hi (blocks ++ [(sp, 8 * (argv.length + 1))])

theorem Strings.below (hu : UserPages s.mem p) (ha : Accessible s.mem p v)
    (hw : WritesBelow s s' p v sp)
    (hin : ∀ b ∈ blocks, sp ≤ b.1 ∧ v * PGSIZE ≤ b.1 ∧ b.1 + b.2 ≤ (v + 1) * PGSIZE)
    (h : Strings s.mem m₀ p blocks argv) : Strings s'.mem m₀ p blocks argv := by
  induction h with
  | nil => exact .nil
  | cons hb _ ih =>
      obtain ⟨h1, h2, h3⟩ := hin _ List.mem_cons_self
      refine .cons ?_ (ih fun b hm => hin b (List.mem_cons_of_mem _ hm))
      rw [hw.userBytes_eq hu ha h1 h2 h3]
      exact hb

/-- The arguments go to the page `v`, if they fit. -/
theorem pushStack_full (hu : UserPages s.mem p) (ha : Accessible s.mem p v) (hv : 0 < v)
    (hcount : argv.length < MAXARG) (hne : ∀ a ∈ argv, a ≠ PTE2PA (entry s.mem p v))
    (hlen : ∀ a ∈ argv, (cString (s.mem a)).length < PGSIZE) :
    wp (pushStack p ((v + 1) * PGSIZE) argv) (fun x s' =>
      WritesBelow s s' p v ((v + 1) * PGSIZE) ∧
      (x = none ∧ PGSIZE < total 16 (pushSizes s.mem argv) ∨
        total 16 (pushSizes s.mem argv) ≤ PGSIZE ∧ ∃ sp, x = some sp ∧
          Stacked s'.mem s.mem p (v * PGSIZE) ((v + 1) * PGSIZE) sp argv)) E s := by
  have hpg : PGSIZE = 4096 := rfl
  have hsucc : (v + 1) * PGSIZE = v * PGSIZE + PGSIZE := Nat.succ_mul ..
  have hal : 16 ∣ (v + 1) * PGSIZE := Dvd.dvd.mul_left (by decide) _
  have hbase : (v + 1) * PGSIZE - PGSIZE = v * PGSIZE := by omega
  have htotal : total 16 (pushSizes s.mem argv) =
      total 16 (textSizes s.mem argv) + room 16 (8 * (argv.length + 1)) := by
    rw [pushSizes, total_append, total_cons, total_nil, Nat.add_zero]
  rw [pushStack, hbase, wp_bind]
  refine (pushArgs_full hu ha hv (by simpa using hcount) hne hlen (by omega) (Nat.le_refl _)
    hal).mono ?_
  rintro x s₁ ⟨hw, ⟨rfl, hlt⟩ | ⟨hle, rfl, hstr⟩⟩
  · exact ⟨hw, .inl ⟨rfl, by omega⟩⟩
  · have hu₁ := hu.congr (hw.tbl_same hu ha)
    have ha₁ := hw.accessible hu ha
    have hlens : ((push 16 ((v + 1) * PGSIZE) (textSizes s.mem argv)).map Prod.fst).length =
        argv.length := by
      rw [List.length_map, length_push, textSizes, List.length_map]
    have hdvd : 16 ∣ total 16 (textSizes s.mem argv) :=
      List.dvd_sum fun x hx => by
        obtain ⟨n, -, rfl⟩ := List.mem_map.mp hx
        exact dvd_room 16 n
    rw [List.nil_append]
    refine (pushPointers_full hu₁ ha₁ hv (by rw [hlens]; exact hcount) (by omega) (by omega)
      (Nat.dvd_sub hal hdvd)).mono ?_
    rw [hlens]
    rintro x s' ⟨hw', hx⟩
    refine ⟨hw.trans hu ha hw' (Nat.sub_le _ _), ?_⟩
    rcases hx with ⟨rfl, hlt⟩ | ⟨hle', rfl, hbytes⟩
    · exact .inl ⟨rfl, by omega⟩
    · have htexts : Packed 16 ((v + 1) * PGSIZE - total 16 (textSizes s.mem argv))
          ((v + 1) * PGSIZE) (push 16 ((v + 1) * PGSIZE) (textSizes s.mem argv)) :=
        push_packed (by decide) hal (by omega)
      generalize hws : (push 16 ((v + 1) * PGSIZE) (textSizes s.mem argv)).map Prod.fst = ws at *
      have hcountw : (ws ++ [0]).length = argv.length + 1 := by rw [List.length_append, hlens]; rfl
      refine .inr ⟨by omega, _, rfl, push 16 ((v + 1) * PGSIZE) (textSizes s.mem argv), ?_, ?_, ?_⟩
      · rw [hws, ← hcountw]
        refine userWords_eq (fun w hw => ?_) (by rw [hcountw]; exact hbytes)
        rcases List.mem_append.mp hw with hw | hw
        · rw [← hws] at hw
          obtain ⟨b, hb, rfl⟩ := List.mem_map.mp hw
          have hin := (htexts.inside b hb).2
          have hmax := ha.1
          have hmaxva : MAXVA = 2 ^ 38 := rfl
          omega
        · rw [List.mem_singleton.mp hw]
          decide
      · refine hstr.below hu₁ ha₁ hw' fun b hb => ?_
        obtain ⟨h1, h2⟩ := htexts.inside b hb
        exact ⟨h1, by omega, h2⟩
      · have hpacked : Packed 16 (v * PGSIZE) ((v + 1) * PGSIZE)
            (push 16 ((v + 1) * PGSIZE) (pushSizes s.mem argv)) :=
          push_packed (by decide) hal (by omega)
        rw [pushSizes, push_append] at hpacked
        exact hpacked

/-! ## `exec` -/

theorem makeStack_ok {x : Option Nat} {top : Nat} (h₁ : stackPages g p sz s = .ok (top, s₁))
    (h0 : top ≠ 0) (h₂ : pushStack p top argv s₁ = .ok (x, s')) :
    makeStack g p sz argv s = .ok ((x, top), s') := by
  rw [makeStack_eq, bind_of_ok h₁, if_neg h0, bind_of_ok h₂]
  rfl

section

variable {N : Nat} {safe : Fin N → Int → Prop} {rest pipes : List Nat} {hand : List (Fin NFILE)}
variable {σ σ' : Sys N} {q : Fin N} {file : Option FileData} {ip : FileData} {pt top : Nat}
variable {k k₀ : Machine} {tf : Nat}

/-- The new address space, before the program is loaded. -/
theorem Ready.table {k₁ : Machine} (h : Inv g safe rest pipes hand σ)
    (hq : (σ.proc q).state ≠ .unused) (hpt : pt ≠ 0)
    (h₁ : proc_pagetable g (σ.proc q).trapframe σ.kern = .ok (pt, k₁)) :
    Space k₁.mem pt (npages 0) (framePte (σ.proc q).trapframe) (trampPte g) ∧
      Turns σ.kern k₁ [] (Vm.space k₁.mem pt (npages 0)) := by
  have hspec := (proc_pagetable_spec h.owned (h.trapframe_page hq).2.2).of_ok h₁
  obtain ⟨-, ht₁, hs₁⟩ := hspec.2.resolve_left fun hl => hpt hl.1
  exact ⟨hs₁, ht₁⟩

/-- The address space in which the program is loaded. -/
theorem Ready.space (h : Inv g safe rest pipes hand σ) (hq : (σ.proc q).state ≠ .unused)
    (hr : Ready g (σ.proc q).trapframe σ.kern ip pt sz k) :
    Space k.mem pt (npages sz) (framePte (σ.proc q).trapframe) (trampPte g) ∧
      Turns σ.kern k [] (Vm.space k.mem pt (npages sz)) := by
  obtain ⟨k₁, h₁, h₂⟩ := hr.loaded
  obtain ⟨hs₁, ht₁⟩ := Ready.table h hq hr.ne_zero h₁
  have hspec := (loadProgram_spec hs₁ (fun v hv => absurd hv (Nat.not_lt_zero v))
    ((h.owned_proc q).turns (ht₁.frame _)).left).of_ok h₂
  exact ⟨hspec.1, ht₁.trans hspec.2⟩

/-- `exec` has the pages of the stack, which ends at `top`; what is left are the arguments. -/
def HasStack (g : Layout) (tf : Nat) (k₀ : Machine) (file : Option FileData) (pt top : Nat)
    (k : Machine) : Prop :=
  ∃ ip sz k₁, file = some ip ∧ Ready g tf k₀ ip pt sz k₁ ∧ stackPages g pt sz k₁ = .ok (top, k) ∧
    top ≠ 0

theorem HasStack.unique {pt' top' : Nat} {k' : Machine} (h : HasStack g tf k₀ file pt top k)
    (h' : HasStack g tf k₀ file pt' top' k') : top' = top := by
  obtain ⟨ip, sz, k₁, rfl, hr, hpages, -⟩ := h
  obtain ⟨ip', sz', k₁', hip, hr', hpages', -⟩ := h'
  cases hip
  obtain ⟨rfl, rfl, rfl⟩ := hr.unique hr'
  rw [hpages] at hpages'
  cases hpages'
  rfl

/-- The arguments go to the last page of the stack, if they fit. -/
theorem HasStack.push (h : Inv g safe rest pipes hand σ) (hq : (σ.proc q).state ≠ .unused)
    (hargs : ∀ a ∈ argv, a ∈ rest) (hcount : argv.length < MAXARG)
    (hlen : ∀ a ∈ argv, (cString (σ.kern.mem a)).length < PGSIZE)
    (hst : HasStack g (σ.proc q).trapframe σ.kern file pt top k) :
    PGSIZE ∣ top ∧ wp (pushStack pt top argv) (fun x k' =>
      (∀ a ≠ PTE2PA (entry k.mem pt (top / PGSIZE - 1)), k'.mem a = k.mem a) ∧
      Accessible k'.mem pt (top / PGSIZE - 1) ∧
      (x = none ∧ ¬ Fits 16 (top - PGSIZE) top (pushSizes σ.kern.mem argv) ∨
        Fits 16 (top - PGSIZE) top (pushSizes σ.kern.mem argv) ∧ ∃ sp, x = some sp ∧
          Stacked k'.mem σ.kern.mem pt (top - PGSIZE) top sp argv)) E k := by
  obtain ⟨ip, sz, k₁, rfl, hr, hpages, h0⟩ := hst
  obtain ⟨hs₁, ht₁⟩ := hr.space h hq
  have ho₁ : Owned g.IsPage k₁ (Vm.space k₁.mem pt (npages sz) ++ rest) :=
    Owned.turns (A := [] ++ rest) h.owned.left (ht₁.frame rest)
  obtain ⟨rfl, hs, ht, hacc, -⟩ := ((stackPages_spec hs₁ ho₁.left).of_ok
    hpages).resolve_left fun hl => h0 hl.1
  have ho := ho₁.turns (ht.frame rest)
  have hsame : ∀ a ∈ rest, k.mem a = σ.kern.mem a := fun a ha =>
    (ht.mem_eq ho₁ ha).trans (ht₁.mem_eq (A := []) h.owned.left ha)
  have hu := hs.userPages (noUser_framePte _) noUser_trampPte ho.left
  have hpg : PGSIZE = 4096 := rfl
  have hdiv : (npages sz + 2) * PGSIZE / PGSIZE - 1 = npages sz + 1 := by
    rw [Nat.mul_div_cancel _ (by decide)]
    omega
  have hlo : (npages sz + 2) * PGSIZE - PGSIZE = (npages sz + 1) * PGSIZE := by
    rw [Nat.succ_mul, Nat.add_sub_cancel]
  have hsizes : pushSizes k.mem argv = pushSizes σ.kern.mem argv := by
    rw [pushSizes, pushSizes, textSizes_congr fun a ha => hsame a (hargs a ha)]
  have hsucc : (npages sz + 2) * PGSIZE = (npages sz + 1) * PGSIZE + PGSIZE := Nat.succ_mul ..
  have hfits : Fits 16 ((npages sz + 1) * PGSIZE) ((npages sz + 2) * PGSIZE)
      (pushSizes σ.kern.mem argv) ↔ total 16 (pushSizes σ.kern.mem argv) ≤ PGSIZE := by
    rw [fits_iff (by decide) (Dvd.dvd.mul_left (by decide) _) (by omega)]
    omega
  rw [hdiv, hlo]
  refine ⟨Nat.dvd_mul_left _ _, ?_⟩
  refine (pushStack_full hu hacc (Nat.succ_pos _) hcount (fun a ha he => ?_)
    (fun a ha => ?_)).mono ?_
  · have hframe : a ∈ Vm.space k.mem pt (npages sz + 2) := by
      rw [he]
      exact List.mem_append_right _ (mem_targets (by omega))
    exact ho.ne hframe (hargs a ha) rfl
  · rw [hsame a (hargs a ha)]
    exact hlen a ha
  rintro x k' ⟨hw, hx⟩
  rw [hsizes] at hx
  rw [hfits]
  refine ⟨hw.page, hw.accessible hu hacc, hx.imp (fun hx => ⟨hx.1, by omega⟩) ?_⟩
  rintro ⟨hle, sp, hsp, blocks, hwords, hstr, hpacked⟩
  exact ⟨hle, sp, hsp, blocks, hwords, hstr.congr fun a ha => hsame a (hargs a ha), hpacked⟩

/-- `makeStack` gets the pages and pushes the arguments. -/
theorem makeStack_inv {sp : Nat} (hr : makeStack g pt sz argv s = .ok ((some sp, top), k)) :
    ∃ s₁, stackPages g pt sz s = .ok (top, s₁) ∧ top ≠ 0 ∧
      pushStack pt top argv s₁ = .ok (some sp, k) := by
  rw [makeStack_eq] at hr
  cases h₁ : stackPages g pt sz s with
  | error e =>
      rw [bind_of_error h₁] at hr
      cases hr
  | ok x =>
      obtain ⟨top', s₁⟩ := x
      rw [bind_of_ok h₁] at hr
      by_cases h0 : top' = 0
      · rw [if_pos h0] at hr
        cases hr
      · rw [if_neg h0] at hr
        cases h₂ : pushStack pt top' argv s₁ with
        | error e =>
            rw [bind_of_error h₂] at hr
            cases hr
        | ok x =>
            obtain ⟨y, s₂⟩ := x
            rw [bind_of_ok h₂] at hr
            cases hr
            exact ⟨s₁, rfl, h0, h₂⟩

/-- A program that reads its stack page finds there what `Stacked` says. -/
theorem Stacked.congr {m' m₀ : Nat → Page} {lo hi : Nat} (h : Stacked m m₀ pt lo hi sp argv)
    (he : ∀ a n, lo ≤ a → a + n ≤ hi → userBytes m' pt a n = userBytes m pt a n) :
    Stacked m' m₀ pt lo hi sp argv := by
  obtain ⟨blocks, hwords, hstr, hpacked⟩ := h
  have hin := fun b hb => hpacked.inside b (List.mem_append_left _ hb)
  obtain ⟨h1, h2⟩ := hpacked.inside (sp, 8 * (argv.length + 1)) (by simp)
  refine ⟨blocks, ?_, ?_, hpacked⟩
  · rw [← hwords]
    refine List.map_congr_left fun i hi => ?_
    have hi := List.mem_range.mp hi
    simp only at h1 h2
    rw [he _ _ (by omega) (by omega)]
  · clear hwords hpacked h1 h2
    induction hstr with
    | nil => exact .nil
    | cons hb _ ih =>
        obtain ⟨h1, h2⟩ := hin _ List.mem_cons_self
        refine .cons ?_ (ih fun b hm => hin b (List.mem_cons_of_mem _ hm))
        rw [he _ _ h1 h2]
        exact hb

/-- The process has its arguments on the stack, and its registers say where. -/
structure HasArguments (σ σ' : Sys N) (q : Fin N) (argv : List Nat) : Prop where
  aligned : PGSIZE ∣ (σ'.proc q).sz
  page : Accessible σ'.kern.mem (σ'.proc q).pagetable ((σ'.proc q).sz / PGSIZE - 1)
  stack : ∃ sp, (σ'.kern.mem (σ'.proc q).trapframe).getLe trapframeA1 8 = sp ∧
    (σ'.kern.mem (σ'.proc q).trapframe).getLe trapframeSp 8 = sp ∧
    Stacked σ'.kern.mem σ.kern.mem (σ'.proc q).pagetable ((σ'.proc q).sz - PGSIZE)
      (σ'.proc q).sz sp argv

theorem Committed.entry_eq {entry : Nat} (h : Committed g σ σ' q pt sz sp entry k) (v : Nat) :
    Vm.entry σ'.kern.mem pt v = Vm.entry k.mem pt v :=
  entry_congr fun a ha => h.image a (List.mem_append_left _ ha)

/-- The user memory of the process is that of the new address space. -/
theorem Committed.userBytes_eq {entry : Nat} (h : Committed g σ σ' q pt sz sp entry k)
    (hle : a + n ≤ sz) : userBytes σ'.kern.mem pt a n = userBytes k.mem pt a n := by
  refine List.map_congr_left fun i hi => ?_
  have hi := List.mem_range.mp hi
  have hpage := h.image _ (List.mem_append_right _
    (mem_targets (div_lt_npages (show a + i < sz by omega))))
  rw [userByte, userByte, place, place, h.entry_eq, byteOf, byteOf, hpage]

theorem Committed.hasArguments {entry : Nat} (h : Committed g σ σ' q pt top sp entry k)
    (hdvd : PGSIZE ∣ top) (hacc : Accessible k.mem pt (top / PGSIZE - 1))
    (hst : Stacked k.mem σ.kern.mem pt (top - PGSIZE) top sp argv) :
    HasArguments σ σ' q argv := by
  have hproc : σ'.proc q = { σ.proc q with pagetable := pt, sz := top } := by
    rw [h.proc, Function.update_self]
  have hsp : sp < 256 ^ 8 := by
    obtain ⟨blocks, -, -, hpacked⟩ := hst
    have hin := (hpacked.inside (sp, 8 * (argv.length + 1)) (by simp)).2
    have hmax := hacc.1
    have hmaxva : MAXVA = 2 ^ 38 := rfl
    rw [PGSIZE] at hmax hdvd
    simp only at hin
    omega
  refine ⟨?_, ?_, sp, ?_, ?_, ?_⟩ <;> rw [hproc]
  · exact hdvd
  · rw [Accessible, h.entry_eq]
    exact hacc
  · rw [h.frame, Bytes.Region.getLe_setLe_of_disjoint _ _ (by decide),
      Bytes.Region.getLe_setLe_of_disjoint _ _ (by decide), Bytes.Region.getLe_setLe _ _ (by decide),
      Nat.mod_eq_of_lt hsp]
  · rw [h.frame, Bytes.Region.getLe_setLe _ _ (by decide), Nat.mod_eq_of_lt hsp]
  · exact hst.congr fun a n _ hhi => h.userBytes_eq hhi

/-- Arguments that fit are pushed. -/
theorem HasStack.makes (h : Inv g safe rest pipes hand σ) (hq : (σ.proc q).state ≠ .unused)
    (hargs : ∀ a ∈ argv, a ∈ rest) (hcount : argv.length < MAXARG)
    (hlen : ∀ a ∈ argv, (cString (σ.kern.mem a)).length < PGSIZE)
    (hst : HasStack g (σ.proc q).trapframe σ.kern file pt top k)
    (hfits : Fits 16 (top - PGSIZE) top (pushSizes σ.kern.mem argv)) :
    ∃ ip sz k₁ sp k', file = some ip ∧ Ready g (σ.proc q).trapframe σ.kern ip pt sz k₁ ∧
      makeStack g pt sz argv k₁ = .ok ((some sp, top), k') := by
  obtain ⟨-, hpush⟩ := hst.push (E := fun _ => False) h hq hargs hcount hlen
  obtain ⟨ip, sz, k₁, rfl, hready, hpages, h0⟩ := hst
  cases hrun : pushStack pt top argv k with
  | error e => exact absurd ((wp_error hrun).mp hpush) id
  | ok x =>
      obtain ⟨-, -, ⟨-, hnot⟩ | ⟨-, sp, hsp, -⟩⟩ := (wp_ok hrun).mp hpush
      · exact absurd hfits hnot
      · refine ⟨ip, sz, k₁, sp, x.2, rfl, hready, makeStack_ok hpages h0 ?_⟩
        rw [hrun, ← hsp]

/-- `exec` succeeds if there is a stack on which the arguments fit. -/
theorem exec_of_fits (h : Inv g safe rest pipes hand σ) (hq : (σ.proc q).state ≠ .unused)
    (hargs : ∀ a ∈ argv, a ∈ rest) (hcount : argv.length < MAXARG)
    (hlen : ∀ a ∈ argv, (cString (σ.kern.mem a)).length < PGSIZE)
    (hst : HasStack g (σ.proc q).trapframe σ.kern file pt top k)
    (hfits : Fits 16 (top - PGSIZE) top (pushSizes σ.kern.mem argv)) :
    wp (exec g q file argv) (fun r _ => r = argv.length) E σ := by
  obtain ⟨ip, sz, k₁, sp, k', hip, hready, hmake⟩ := hst.makes h hq hargs hcount hlen hfits
  refine (exec_full h hq).mono ?_
  rintro r σ' (⟨-, -, hno⟩ | ⟨hr, -⟩)
  · exact absurd hmake (hno ip hip pt sz k₁ hready sp top k')
  · exact hr

/-- If `exec` succeeds, the program finds its arguments on the stack.  Once there is a stack,
`exec` fails exactly if the arguments do not fit in its page, and it writes to no other page. -/
theorem arguments_decode (h : Inv g safe rest pipes hand σ) (hq : (σ.proc q).state ≠ .unused)
    (hargs : ∀ a ∈ argv, a ∈ rest) (hcount : argv.length < MAXARG)
    (hlen : ∀ a ∈ argv, (cString (σ.kern.mem a)).length < PGSIZE) :
    wp (exec g q file argv) (fun r σ' =>
      (r ≠ -1 → r = argv.length ∧ HasArguments σ σ' q argv ∧
        ∃ pt top k, HasStack g (σ.proc q).trapframe σ.kern file pt top k) ∧
      ∀ pt top k, HasStack g (σ.proc q).trapframe σ.kern file pt top k →
        (r = -1 ↔ ¬ Fits 16 (top - PGSIZE) top (pushSizes σ.kern.mem argv)) ∧
        wp (pushStack pt top argv) (fun _ k' =>
          ∀ a ≠ PTE2PA (entry k.mem pt (top / PGSIZE - 1)), k'.mem a = k.mem a)
          (fun _ => False) k) (fun _ => False) σ := by
  refine (exec_full h hq).mono ?_
  rintro r σ' (⟨rfl, -, hno⟩ | ⟨rfl, ip, rfl, pt, sz, k₁, hready, sp, top, k, hmake, hcom⟩)
  · refine ⟨fun hne => absurd rfl hne, fun pt top k hst => ?_⟩
    obtain ⟨-, hpush⟩ := hst.push (E := fun _ => False) h hq hargs hcount hlen
    refine ⟨⟨fun _ hfits => ?_, fun _ => rfl⟩, hpush.mono fun _ _ hx => hx.1⟩
    obtain ⟨ip, sz, k₁, sp, k', hip, hready, hmake⟩ := hst.makes h hq hargs hcount hlen hfits
    exact hno ip hip pt sz k₁ hready sp top k' hmake
  · obtain ⟨k₂, hpages, h0, hrun⟩ := makeStack_inv hmake
    have hst : HasStack g (σ.proc q).trapframe σ.kern (some ip) pt top k₂ :=
      ⟨ip, sz, k₁, rfl, hready, hpages, h0⟩
    obtain ⟨hdvd, hpush⟩ := hst.push (E := fun _ => False) h hq hargs hcount hlen
    obtain ⟨-, hacc, ⟨hnone, -⟩ | ⟨hfits, sp', hsp, hstacked⟩⟩ := (wp_ok hrun).mp hpush
    · cases hnone
    · cases hsp
      refine ⟨fun _ => ⟨rfl, hcom.hasArguments hdvd hacc hstacked, pt, top, k₂, hst⟩,
        fun pt' top' k' hst' => ?_⟩
      obtain ⟨-, hpush'⟩ := hst'.push (E := fun _ => False) h hq hargs hcount hlen
      refine ⟨⟨fun hneg => by omega, fun hnot => ?_⟩, hpush'.mono fun _ _ hx => hx.1⟩
      rw [hst.unique hst'] at hnot
      exact absurd hfits hnot

/-- The strings and the array are small enough for a page. -/
theorem HasStack.fits (h : Inv g safe rest pipes hand σ) (hq : (σ.proc q).state ≠ .unused)
    (hst : HasStack g (σ.proc q).trapframe σ.kern file pt top k)
    (htotal : total 16 (pushSizes σ.kern.mem argv) ≤ PGSIZE) :
    Fits 16 (top - PGSIZE) top (pushSizes σ.kern.mem argv) := by
  have hno : ∀ P : Nat → Prop, ∀ a ∈ ([] : List Nat), P a := fun _ a ha =>
    absurd ha List.not_mem_nil
  have hdvd := (hst.push (E := fun _ => False) h hq (hno _) (by decide) (hno _)).1
  obtain ⟨-, -, -, -, -, -, h0⟩ := hst
  have hle : PGSIZE ≤ top := Nat.le_of_dvd (Nat.pos_of_ne_zero h0) hdvd
  rw [fits_iff (by decide) (Dvd.dvd.trans (by decide) hdvd) (Nat.sub_le _ _)]
  omega

theorem HasStack.exec_nil (h : Inv g safe rest pipes hand σ) (hq : (σ.proc q).state ≠ .unused)
    (hst : HasStack g (σ.proc q).trapframe σ.kern file pt top k) :
    wp (exec g q file []) (fun r _ => r = 0) E σ := by
  refine (exec_of_fits h hq (fun a ha => absurd ha List.not_mem_nil) (by decide)
    (fun a ha => absurd ha List.not_mem_nil) hst (hst.fits h hq ?_)).mono fun r _ hr => ?_
  · show 16 ≤ PGSIZE
    decide
  · rw [hr]
    rfl

/-- The calls of `exec` up to the pages of the stack. -/
def stackCalls (g : Layout) (tf : Nat) (ip : FileData) : Kern (Nat × Bool × Nat) := do
  let pt ← proc_pagetable g tf
  let (loaded, sz) ← loadProgram g pt ip (elfhdr ip).phnum ((elfhdr ip).phoff % 2 ^ 32) 0
  let top ← stackPages g pt sz
  return (pt, loaded, top)

theorem HasStack.of_calls
    (hh : (readi ip 0 elfhdrSize).length = elfhdrSize) (hm : (elfhdr ip).magic = ELF_MAGIC)
    (hw : wp (stackCalls g tf ip) (fun x _ => x.1 ≠ 0 ∧ x.2.1 = true ∧ x.2.2 ≠ 0)
      (fun _ => False) k₀) : ∃ pt top k, HasStack g tf k₀ (some ip) pt top k := by
  rw [stackCalls, wp_bind] at hw
  cases h₁ : proc_pagetable g tf k₀ with
  | error e => exact absurd ((wp_error h₁).mp hw) id
  | ok x =>
  obtain ⟨pt, k₁⟩ := x
  have hw := (wp_ok h₁).mp hw
  rw [wp_bind] at hw
  cases h₂ : loadProgram g pt ip (elfhdr ip).phnum ((elfhdr ip).phoff % 2 ^ 32) 0 k₁ with
  | error e => exact absurd ((wp_error h₂).mp hw) id
  | ok x =>
  obtain ⟨⟨loaded, sz⟩, k₂⟩ := x
  have hw := (wp_ok h₂).mp hw
  simp only at hw
  rw [wp_bind] at hw
  cases h₃ : stackPages g pt sz k₂ with
  | error e => exact absurd ((wp_error h₃).mp hw) id
  | ok x =>
  obtain ⟨top, k₃⟩ := x
  obtain ⟨hpt, rfl, htop⟩ := (wp_ok h₃).mp hw
  exact ⟨pt, top, k₃, ip, sz, k₂, rfl, ⟨hh, hm, hpt, k₁, h₁, h₂⟩, h₃, htop⟩

end

/-- The first process of a small machine gets a stack for a program. -/
theorem HasStack.at_boot (ip : FileData) (hh : (readi ip 0 elfhdrSize).length = elfhdrSize)
    (hm : (elfhdr ip).magic = ELF_MAGIC)
    (hw : ∃ taken s₀, bootZeroed smallLayout = .ok (taken, s₀) ∧
      Good smallLayout (fun _ _ => False) taken s₀ ∧ (s₀.proc 0).state ≠ .unused ∧
      wp (stackCalls smallLayout (s₀.proc 0).trapframe ip)
        (fun x _ => x.1 ≠ 0 ∧ x.2.1 = true ∧ x.2.2 ≠ 0) (fun _ => False) s₀.kern) :
    ∃ taken s₀ pipes, bootZeroed smallLayout = .ok (taken, s₀) ∧
      Inv smallLayout (fun _ _ => False) taken pipes [] s₀ ∧ (s₀.proc 0).state ≠ .unused ∧
      ∃ pt top k, HasStack smallLayout (s₀.proc 0).trapframe s₀.kern (some ip) pt top k := by
  obtain ⟨taken, s₀, hb, ⟨pipes, hg⟩, hst, hcalls⟩ := hw
  exact ⟨taken, s₀, pipes, hb, hg, hst, HasStack.of_calls hh hm hcalls⟩

theorem boot_text : ∃ taken s₀ pipes,
    bootZeroed smallLayout = .ok (taken, s₀) ∧
      Inv smallLayout (fun _ _ => False) taken pipes [] s₀ ∧ (s₀.proc 0).state ≠ .unused ∧
      ∃ pt top k, HasStack smallLayout (s₀.proc 0).trapframe s₀.kern (some textFile) pt top k :=
  HasStack.at_boot textFile (by decide +kernel) (by decide +kernel)
    (exists_boot_of_check (by decide +kernel))

/-- A vector with one argument, the string `ab` behind it. -/
def argvBytes : List UInt8 := [16, 0, 0, 0, 0, 0, 0, 0, 0, 0, 0, 0, 0, 0, 0, 0, 97, 98, 0]

/-- The first process runs a program with one argument, which `sys_exec` has read into a page. -/
theorem arguments_decode_one : ∃ taken s₀ s page k s', bootZeroed smallLayout = .ok (taken, s₀) ∧
    Run.exec (step smallLayout) s₀ [(0, .store 0 argvBytes)] = some s ∧
    fetchArgs (s.proc 0).pagetable (s.proc 0).sz 0 MAXARG 0 [] s.kern = .ok ((true, [page]), k) ∧
    cString (k.mem page) = [97, 98] ∧
    exec smallLayout 0 (some textFile) [page] (s.setKern k) = .ok (1, s') ∧
    HasArguments (s.setKern k) s' 0 [page] := by
  obtain ⟨taken, s₀, s, hb, hr, ⟨pipes, hg⟩, hst, hrun⟩ : ∃ taken s₀ s,
      bootZeroed smallLayout = .ok (taken, s₀) ∧
      Run.exec (step smallLayout) s₀ [(0, .store 0 argvBytes)] = some s ∧
      Good smallLayout (fun _ _ => False) taken s ∧ (s.proc 0).state ≠ .unused ∧
      wp (fetchArgs (s.proc 0).pagetable (s.proc 0).sz 0 MAXARG 0 []) (fun r k =>
        r.1 = true ∧ r.2.length = 1 ∧ (∀ page ∈ r.2, cString (k.mem page) = [97, 98]) ∧
        wp (stackCalls smallLayout (s.proc 0).trapframe textFile)
          (fun x _ => x.1 ≠ 0 ∧ x.2.1 = true ∧ x.2.2 ≠ 0) (fun _ => False) k)
        (fun _ => False) s.kern := exists_good_of_check (by decide +kernel)
  have howned := hg.owned
  rw [← List.nil_append (taken ++ _)] at howned
  obtain ⟨r, k, hfetch, ⟨hfound, hone, htext, hcalls⟩, hturns⟩ :=
    (hrun.and (fetchArgs_spec howned)).returns
  obtain ⟨page, hpage⟩ := List.length_eq_one_iff.mp hone
  obtain rfl : r = (true, [page]) := Prod.ext hfound hpage
  have hcs : cString (k.mem page) = [97, 98] := htext page List.mem_cons_self
  have hk : Inv smallLayout (fun _ _ => False) ([page] ++ taken) pipes [] (s.setKern k) :=
    Inv.turn (X := []) hg hturns
  obtain ⟨pt, top, k', hstack⟩ := HasStack.of_calls (by decide +kernel) (by decide +kernel) hcalls
  have hmem : ∀ a ∈ [page], a = page := fun a ha => List.mem_singleton.mp ha
  have hlen : (cString (k.mem page)).length < PGSIZE := by
    rw [hcs]
    decide
  have htotal : total 16 (pushSizes k.mem [page]) ≤ PGSIZE := by
    rw [pushSizes, textSizes, List.map_cons, hcs]
    show total 16 [3, 16] ≤ PGSIZE
    decide
  have hfits : Fits 16 (top - PGSIZE) top (pushSizes (s.setKern k).kern.mem [page]) :=
    hstack.fits hk hst htotal
  have hargs : ∀ a ∈ [page], a ∈ [page] ++ taken := fun a ha => List.mem_append_left _ ha
  have hcount : [page].length < MAXARG := show 1 < MAXARG by decide
  obtain ⟨r, s', hexec, hdec, hfail⟩ := (arguments_decode hk hst hargs hcount
    (fun a ha => by rw [hmem a ha]; exact hlen) :
      wp (exec smallLayout 0 (some textFile) [page]) _ _ _).returns
  have hne : r ≠ -1 := fun he => (hfail pt top k' hstack).1.mp he hfits
  obtain ⟨rfl, hargs, -⟩ := hdec hne
  exact ⟨taken, s₀, s, page, k, s', hb, hr, hfetch, hcs, hexec, hargs⟩

end Xv6.Vm
