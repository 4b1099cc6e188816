import Xv6.Vm.Mapping

/-!
# What the copies to and from user memory transfer

A user page is accessible if it is below `MAXVA` and its entry has `PTE_V` and
`PTE_U`; this is what `walkaddr` tests.  A copy goes over its range page by page
and stops at the first page that is not accessible.  The loops never compute an
address beyond `MAXVA + PGSIZE`, so that 64-bit addresses do not wrap: a range that
would wrap meets a page above `MAXVA` first.
-/

namespace Xv6.Vm

open Hoare FreeList

/-- The user pages are pages of RAM, different for different addresses and none of
them a page of the page table. -/
structure UserPages (m : Nat → Page) (p : Nat) : Prop where
  ram : ∀ v, Accessible m p v → KERNBASE ≤ PTE2PA (entry m p v) ∧ PTE2PA (entry m p v) < PHYSTOP
  distinct : ∀ v w, Accessible m p v → Accessible m p w →
    PTE2PA (entry m p v) = PTE2PA (entry m p w) → v = w
  apart : ∀ v, Accessible m p v → PTE2PA (entry m p v) ∉ tbl m 2 p

/-- The page and the offset of a user address in physical memory. -/
def place (m : Nat → Page) (p a : Nat) : Nat × Nat :=
  (PTE2PA (entry m p (a / PGSIZE)), a % PGSIZE)

/-- A byte of physical memory. -/
def byteOf (m : Nat → Page) (x : Nat × Nat) : UInt8 := (m x.1).get x.2

/-- The byte at a user address. -/
def userByte (m : Nat → Page) (p a : Nat) : UInt8 := byteOf m (place m p a)

/-- The bytes of a range of user addresses. -/
def userBytes (m : Nat → Page) (p a len : Nat) : List UInt8 :=
  (List.range len).map fun i => userByte m p (a + i)

/-- Every page of the range is accessible. -/
def InReach (m : Nat → Page) (p va len : Nat) : Prop :=
  len = 0 ∨ va + len ≤ 2 ^ 64 ∧
    ∀ v, va / PGSIZE ≤ v → v * PGSIZE < va + len → Accessible m p v

/-- The first page of the range that is not accessible. -/
structure FirstBad (m : Nat → Page) (p va len v : Nat) : Prop where
  from_start : va / PGSIZE ≤ v
  in_range : v * PGSIZE < va + len
  bad : ¬ Accessible m p v
  first : ∀ w, va / PGSIZE ≤ w → w < v → Accessible m p w

/-- The result of a copy of a range of which `k` bytes were transferred. -/
structure Copied (m : Nat → Page) (p va len : Nat) (r : Int) (k : Nat) : Prop where
  zero_iff : r = 0 ↔ InReach m p va len
  all : r = 0 → k = len
  part : r ≠ 0 → r = -1 ∧ ∃ v, FirstBad m p va len v ∧ k = v * PGSIZE - va

variable {s : Machine} {E : Panic → Prop} {m : Nat → Page}
variable {p va v len n k a fuel np fr tr : Nat} {r : Int} {m' : Nat → Page} {dst bs : List UInt8}
  {s' : Machine} {g : Layout}

/-! ## One page -/

theorem sub_PGROUNDDOWN (va : Nat) : va - PGROUNDDOWN va = va % PGSIZE := by
  rw [PGROUNDDOWN, PGSIZE]
  omega

theorem mod_pgsize_lt (va : Nat) : va % PGSIZE < PGSIZE := Nat.mod_lt _ (by decide)

/-- What `walkaddr` returns for the page of an address. -/
theorem addrOf_round (h : Accessible m p (va / PGSIZE)) :
    addrOf m p (PGROUNDDOWN va) = PTE2PA (entry m p (va / PGSIZE)) := by
  obtain ⟨h1, h2, h3⟩ := h
  have hlt := page_lt h1
  rw [Nat.mul_div_cancel _ (by decide)] at hlt
  exact addrOf_page hlt h2 h3

theorem addrOf_round_zero (h : ¬ Accessible m p (va / PGSIZE)) :
    addrOf m p (PGROUNDDOWN va) = 0 := by
  by_contra hne
  obtain ⟨h1, h2, h3, -⟩ := addrOf_ne_zero hne
  rw [PGROUNDDOWN, Nat.mul_div_cancel _ (by decide)] at h2 h3
  exact h ⟨h1, h2, h3⟩

theorem UserPages.ne_zero (h : UserPages m p) (hv : Accessible m p v) :
    PTE2PA (entry m p v) ≠ 0 := by
  have hr := (h.ram v hv).1
  have hk : 0 < KERNBASE := by decide
  omega

/-- An address in the same page. -/
theorem same_page {i : Nat} (h : va % PGSIZE + i < PGSIZE) :
    (va + i) / PGSIZE = va / PGSIZE ∧ (va + i) % PGSIZE = va % PGSIZE + i := by
  rw [PGSIZE] at h ⊢
  omega

/-- The bytes of a range inside a page. -/
theorem userBytes_page (h : va % PGSIZE + n ≤ PGSIZE) :
    userBytes m p va n = (m (PTE2PA (entry m p (va / PGSIZE)))).read (va % PGSIZE) n := by
  rw [userBytes, Bytes.Region.read]
  apply List.map_congr_left
  intro i hi
  have hin : va % PGSIZE + i < PGSIZE := by
    have := List.mem_range.mp hi
    omega
  obtain ⟨h1, h2⟩ := same_page hin
  rw [userByte, place, h1, h2, byteOf]

theorem userBytes_add (m : Nat → Page) (p va n k : Nat) :
    userBytes m p va (n + k) = userBytes m p va n ++ userBytes m p (va + n) k := by
  simp only [userBytes, List.range_add, List.map_append, List.map_map, Function.comp_def,
    Nat.add_assoc]

@[simp] theorem length_userBytes : (userBytes m p va n).length = n := by
  simp [userBytes]

/-- The rest of a range after the part in its first page. -/
theorem next_page (va : Nat) : PGROUNDDOWN va + PGSIZE = va + (PGSIZE - va % PGSIZE) := by
  have hm := mod_pgsize_lt va
  have hd := sub_PGROUNDDOWN va
  have hle : PGROUNDDOWN va ≤ va := Nat.div_mul_le_self va PGSIZE
  omega

/-! ## How far a copy gets -/

/-- A copy stops after `k` bytes. -/
structure Stops (m : Nat → Page) (p va len : Nat) (r : Int) (k : Nat) : Prop where
  le : k ≤ len
  good : ∀ i < k, Accessible m p ((va + i) / PGSIZE)
  why : r = 0 ∧ k = len ∨ r = -1 ∧ k < len ∧ ¬ Accessible m p ((va + k) / PGSIZE) ∧
    (k = 0 ∨ (va + k) % PGSIZE = 0)

theorem Stops.empty : Stops m p va 0 0 0 :=
  ⟨Nat.le_refl _, fun _ hi => absurd hi (Nat.not_lt_zero _), .inl ⟨rfl, rfl⟩⟩

theorem Stops.congr (h : Stops m' p va len r k) (he : ∀ v, entry m' p v = entry m p v) :
    Stops m p va len r k := by
  have ha : ∀ v, Accessible m' p v ↔ Accessible m p v := fun v => by
    rw [Accessible, he, Accessible]
  refine ⟨h.le, fun i hi => (ha _).mp (h.good i hi), ?_⟩
  rw [← ha]
  exact h.why

/-- A copy whose first page is not accessible. -/
theorem Stops.none (hlen : 0 < len) (h : ¬ Accessible m p (va / PGSIZE)) :
    Stops m p va len (-1) 0 :=
  ⟨Nat.zero_le _, fun _ hi => absurd hi (Nat.not_lt_zero _), .inr ⟨rfl, hlen, h, .inl rfl⟩⟩

/-- A copy that ends in its first page. -/
theorem Stops.last (h : Accessible m p (va / PGSIZE)) (hlen : len ≤ PGSIZE - va % PGSIZE) :
    Stops m p va len 0 len where
  le := Nat.le_refl _
  good := fun i hi => by
    have hm := mod_pgsize_lt va
    rwa [(same_page (by omega)).1]
  why := .inl ⟨rfl, rfl⟩

/-- A copy that goes on with the next page. -/
theorem Stops.next (h : Accessible m p (va / PGSIZE)) (hlen : PGSIZE - va % PGSIZE < len)
    (hs : Stops m p (PGROUNDDOWN va + PGSIZE) (len - (PGSIZE - va % PGSIZE)) r k) :
    Stops m p va len r (PGSIZE - va % PGSIZE + k) := by
  have hm := mod_pgsize_lt va
  rw [next_page va] at hs
  obtain ⟨hle, hgood, hwhy⟩ := hs
  rw [Nat.add_assoc] at hwhy
  refine ⟨by omega, fun i hi => ?_, ?_⟩
  · by_cases hi' : i < PGSIZE - va % PGSIZE
    · rwa [(same_page (by omega)).1]
    · have hg := hgood (i - (PGSIZE - va % PGSIZE)) (by omega)
      rwa [Nat.add_assoc, Nat.add_sub_of_le (Nat.not_lt.mp hi')] at hg
  · rcases hwhy with ⟨h0, hk⟩ | ⟨h1, hk, hbad, hpage⟩
    · exact .inl ⟨h0, by omega⟩
    · refine .inr ⟨h1, by omega, hbad, .inr ?_⟩
      rcases hpage with rfl | hpage
      · have hd := Nat.div_add_mod va PGSIZE
        have he : va + (PGSIZE - va % PGSIZE + 0) = PGSIZE * (va / PGSIZE + 1) := by
          rw [Nat.mul_succ]
          omega
        rw [he, Nat.mul_mod_right]
      · exact hpage

theorem Accessible.lt_maxva (h : Accessible m p v) (ha : a / PGSIZE = v) : a < MAXVA := by
  have hlt := h.1
  have h1 : MAXVA = 2 ^ 38 := rfl
  rw [PGSIZE] at hlt ha
  omega

/-- How far a copy gets says what its result is. -/
theorem Stops.copied (h : Stops m p va len r k) : Copied m p va len r k := by
  have hp0 : 0 < PGSIZE := by decide
  obtain ⟨hle, hgood, ⟨rfl, rfl⟩ | ⟨rfl, hk, hbad, hpage⟩⟩ := h
  · refine ⟨⟨fun _ => ?_, fun _ => rfl⟩, fun _ => rfl, fun h => absurd rfl h⟩
    rcases Nat.eq_zero_or_pos k with h0 | hpos
    · exact .inl h0
    · have hlast := (hgood (k - 1) (by omega)).lt_maxva rfl
      have h1 : MAXVA = 2 ^ 38 := rfl
      refine .inr ⟨by omega, fun v h2 h3 => ?_⟩
      by_cases hv : v = va / PGSIZE
      · have hg := hgood 0 hpos
        rwa [Nat.add_zero, ← hv] at hg
      · have hge : va ≤ v * PGSIZE := by
          have hd := Nat.div_add_mod va PGSIZE
          have hm := mod_pgsize_lt va
          have hs : (va / PGSIZE + 1) * PGSIZE ≤ v * PGSIZE := Nat.mul_le_mul_right _ (by omega)
          rw [Nat.succ_mul, Nat.mul_comm] at hs
          omega
        have hg := hgood (v * PGSIZE - va) (by omega)
        rwa [Nat.add_sub_of_le hge, Nat.mul_div_cancel _ hp0] at hg
  · have hdiv : va / PGSIZE ≤ (va + k) / PGSIZE := Nat.div_le_div_right (Nat.le_add_right va k)
    have hmul := Nat.div_mul_le_self (va + k) PGSIZE
    have hin : (va + k) / PGSIZE * PGSIZE < va + len := by omega
    refine ⟨⟨(by cases ·), fun h => ?_⟩, (by cases ·), fun _ => ⟨rfl, _,
      ⟨hdiv, hin, hbad, fun w h1 h2 => ?_⟩, ?_⟩⟩
    · rcases h with h | ⟨-, h⟩
      · omega
      · exact absurd (h _ hdiv hin) hbad
    · have hge : w * PGSIZE < va + k := by
        have hs : (w + 1) * PGSIZE ≤ (va + k) / PGSIZE * PGSIZE := Nat.mul_le_mul_right _ h2
        rw [Nat.succ_mul] at hs
        omega
      by_cases hw : va ≤ w * PGSIZE
      · have hg := hgood (w * PGSIZE - va) (by omega)
        rwa [Nat.add_sub_of_le hw, Nat.mul_div_cancel _ hp0] at hg
      · have hw' : va / PGSIZE = w :=
          Nat.le_antisymm h1 ((Nat.le_div_iff_mul_le hp0).mpr (Nat.le_of_not_le hw))
        have hk0 : 0 < k := by
          rcases Nat.eq_zero_or_pos k with rfl | hk0
          · rw [Nat.add_zero] at h2
            omega
          · exact hk0
        have hg := hgood 0 hk0
        rwa [Nat.add_zero, hw'] at hg
    · rcases hpage with rfl | hpage
      · rw [Nat.add_zero] at hmul ⊢
        omega
      · have hd := Nat.div_add_mod (va + k) PGSIZE
        rw [hpage, Nat.mul_comm] at hd
        omega

/-! ## `copyin` -/

@[simp] theorem wp_copyinLoop_zero {Q : Int × List UInt8 → Machine → Prop} :
    wp (copyinLoop p fuel va 0 dst) Q E s ↔ Q (0, dst) s := by
  cases fuel <;> exact Iff.rfl

theorem copyinLoop_stops (hu : UserPages s.mem p) (hf : len ≤ fuel) :
    wp (copyinLoop p fuel va len dst) (fun r s' => s' = s ∧ ∃ k,
      Stops s.mem p va len r.1 k ∧ r.2 = dst ++ userBytes s.mem p va k) E s := by
  induction fuel generalizing va len dst with
  | zero =>
      obtain rfl : len = 0 := Nat.le_zero.mp hf
      exact ⟨rfl, 0, .empty, (List.append_nil dst).symm⟩
  | succ fuel ih =>
      cases len with
      | zero => exact ⟨rfl, 0, .empty, (List.append_nil dst).symm⟩
      | succ len =>
          have hm := mod_pgsize_lt va
          rw [copyinLoop, wp_bind, wp_walkaddr]
          · by_cases hacc : Accessible s.mem p (va / PGSIZE)
            · rw [addrOf_round hacc, if_neg (hu.ne_zero hacc), wp_bind, wp_get]
              simp only [sub_PGROUNDDOWN]
              by_cases hlen : len + 1 ≤ PGSIZE - va % PGSIZE
              · rw [Nat.min_eq_right hlen, Nat.sub_self, ← userBytes_page (by omega),
                  wp_copyinLoop_zero]
                exact ⟨rfl, len + 1, .last hacc hlen, rfl⟩
              · have hlt := Nat.not_le.mp hlen
                rw [Nat.min_eq_left (Nat.le_of_lt hlt), ← userBytes_page (by omega)]
                refine wp.mono (ih (by omega)) ?_
                rintro r s' ⟨rfl, k, hk, hr⟩
                refine ⟨rfl, _, hk.next hacc hlt, ?_⟩
                rw [hr, next_page va, List.append_assoc, userBytes_add]
            · rw [addrOf_round_zero hacc, if_pos rfl]
              exact ⟨rfl, 0, .none (Nat.succ_pos _) hacc, (List.append_nil dst).symm⟩
          · simp

/-! ## `copyout` -/

/-- The bytes `bs` were stored at the user addresses from `va` on, and nothing
else changed. -/
structure Stored (s s' : Machine) (p va : Nat) (bs : List UInt8) : Prop where
  free : s'.free = s.free
  inside : ∀ i (h : i < bs.length), byteOf s'.mem (place s.mem p (va + i)) = bs[i]
  outside : ∀ x, (∀ i < bs.length, x ≠ place s.mem p (va + i)) → byteOf s'.mem x = byteOf s.mem x

theorem Stored.refl (s : Machine) (p va : Nat) : Stored s s p va [] where
  free := rfl
  inside := fun _ h => absurd h (Nat.not_lt_zero _)
  outside := fun _ _ => rfl

/-- A page none of whose bytes was written. -/
theorem Stored.page_eq {pa : Nat} (h : Stored s s' p va bs)
    (hpa : ∀ i < bs.length, PTE2PA (entry s.mem p ((va + i) / PGSIZE)) ≠ pa) :
    s'.mem pa = s.mem pa := by
  apply Bytes.Region.ext_get
  intro off _
  exact h.outside (pa, off) fun i hi he => hpa i hi (congrArg Prod.fst he).symm

/-- Bytes that go to user pages leave the page table as it is. -/
theorem Stored.tbl_same (hu : UserPages s.mem p) (h : Stored s s' p va bs)
    (hgood : ∀ i < bs.length, Accessible s.mem p ((va + i) / PGSIZE)) :
    ∀ q ∈ tbl s.mem 2 p, s'.mem q = s.mem q :=
  fun _ hq => h.page_eq fun i hi he => hu.apart _ (hgood i hi) (he ▸ hq)

theorem UserPages.congr (hu : UserPages m p) (h : ∀ q ∈ tbl m 2 p, m' q = m q) :
    UserPages m' p := by
  have he : ∀ v, entry m' p v = entry m p v := fun v => entry_congr h
  have ha : ∀ v, Accessible m' p v → Accessible m p v := fun v hv => by
    rwa [Accessible, he] at hv
  refine ⟨fun v hv => ?_, fun v w hv hw hvw => ?_, fun v hv => ?_⟩
  · rw [he]
    exact hu.ram v (ha v hv)
  · rw [he, he] at hvw
    exact hu.distinct v w (ha v hv) (ha w hw) hvw
  · rw [he, tbl_congr h]
    exact hu.apart v (ha v hv)

/-- One store inside a page. -/
theorem Stored.one (h : va % PGSIZE + bs.length ≤ PGSIZE) :
    Stored s (s.set (PTE2PA (entry s.mem p (va / PGSIZE)))
      ((s.mem (PTE2PA (entry s.mem p (va / PGSIZE)))).write (va % PGSIZE) bs)) p va bs := by
  have hpl : ∀ i < bs.length, place s.mem p (va + i) =
      (PTE2PA (entry s.mem p (va / PGSIZE)), va % PGSIZE + i) := fun i hi => by
    obtain ⟨h1, h2⟩ := same_page (show va % PGSIZE + i < PGSIZE by omega)
    rw [place, h1, h2]
  refine ⟨rfl, fun i hi => ?_, fun x hx => ?_⟩
  · rw [hpl i hi]
    show (Function.update s.mem _ _ _).get _ = _
    rw [Function.update_self]
    exact Bytes.Region.get_write_of_mem _ hi (by omega)
  · show (Function.update s.mem _ _ x.1).get x.2 = (s.mem x.1).get x.2
    by_cases hpa : x.1 = PTE2PA (entry s.mem p (va / PGSIZE))
    · rw [hpa, Function.update_self]
      apply Bytes.Region.get_write_of_disjoint
      by_contra hc
      refine hx (x.2 - va % PGSIZE) (by omega) ?_
      rw [hpl _ (by omega), ← hpa, Nat.add_sub_of_le (by omega)]
    · rw [Function.update_of_ne hpa]

/-- Two addresses with one place are equal. -/
theorem place_inj {b : Nat} (hu : UserPages m p) (ha : Accessible m p (a / PGSIZE))
    (hb : Accessible m p (b / PGSIZE)) (h : place m p a = place m p b) : a = b := by
  have hd := hu.distinct _ _ ha hb (congrArg Prod.fst h)
  have hm : a % PGSIZE = b % PGSIZE := congrArg Prod.snd h
  rw [← Nat.div_add_mod a PGSIZE, ← Nat.div_add_mod b PGSIZE, hd, hm]

/-- Two stores one after the other. -/
theorem Stored.append {s₁ : Machine} {bs' : List UInt8} (hu : UserPages s.mem p)
    (h : Stored s s₁ p va bs) (h' : Stored s₁ s' p (va + bs.length) bs')
    (hgood : ∀ i < bs.length + bs'.length, Accessible s.mem p ((va + i) / PGSIZE)) :
    Stored s s' p va (bs ++ bs') := by
  have hmt := h.tbl_same hu fun i hi => hgood i (by omega)
  have hpl : ∀ a, place s₁.mem p a = place s.mem p a := fun a => by
    rw [place, entry_congr hmt, place]
  have hlen : (bs ++ bs').length = bs.length + bs'.length := List.length_append
  refine ⟨h'.free.trans h.free, fun i hi => ?_, fun x hx => ?_⟩
  · rw [hlen] at hi
    by_cases hi' : i < bs.length
    · rw [h'.outside _ fun j hj he => ?_, h.inside i hi', List.getElem_append_left hi']
      rw [hpl] at he
      have := place_inj hu (hgood i hi) (by rw [Nat.add_assoc]; exact hgood _ (by omega)) he
      omega
    · have hin := h'.inside (i - bs.length) (by omega)
      rw [hpl, Nat.add_assoc, Nat.add_sub_of_le (Nat.not_lt.mp hi')] at hin
      rw [hin, List.getElem_append_right (Nat.not_lt.mp hi')]
  · rw [hlen] at hx
    rw [h'.outside x fun j hj => ?_, h.outside x fun j hj => hx j (by omega)]
    rw [hpl, Nat.add_assoc]
    exact hx _ (by omega)

@[simp] theorem wp_copyoutLoop_nil {Q : Int → Machine → Prop} :
    wp (copyoutLoop p fuel va []) Q E s ↔ Q 0 s := by
  cases fuel <;> exact Iff.rfl

theorem copyoutLoop_stops {src : List UInt8} (hu : UserPages s.mem p) (hf : src.length ≤ fuel) :
    wp (copyoutLoop p fuel va src) (fun r s' => ∃ k,
      Stops s.mem p va src.length r k ∧ Stored s s' p va (src.take k)) E s := by
  induction fuel generalizing s va src with
  | zero =>
      obtain rfl : src = [] := List.eq_nil_of_length_eq_zero (Nat.le_zero.mp hf)
      exact ⟨0, .empty, .refl s p va⟩
  | succ fuel ih =>
      cases hsrc : src with
      | nil => exact ⟨0, .empty, .refl s p va⟩
      | cons b bs =>
          have hpos : 0 < src.length := by rw [hsrc]; exact Nat.succ_pos _
          have hm := mod_pgsize_lt va
          rw [copyoutLoop, wp_bind, wp_walkaddr]
          · rw [← hsrc]
            by_cases hacc : Accessible s.mem p (va / PGSIZE)
            · rw [addrOf_round hacc, if_neg (hu.ne_zero hacc), wp_bind, wp_storeBytes]
              simp only [sub_PGROUNDDOWN]
              by_cases hlen : src.length ≤ PGSIZE - va % PGSIZE
              · rw [Nat.min_eq_right hlen, List.take_length, List.drop_length,
                  wp_copyoutLoop_nil]
                refine ⟨src.length, .last hacc hlen, ?_⟩
                rw [List.take_length]
                exact .one (by omega)
              · have hlt := Nat.not_le.mp hlen
                have htake : (src.take (PGSIZE - va % PGSIZE)).length = PGSIZE - va % PGSIZE :=
                  List.length_take_of_le (Nat.le_of_lt hlt)
                rw [Nat.min_eq_left (Nat.le_of_lt hlt)]
                have hone : Stored s _ p va (src.take (PGSIZE - va % PGSIZE)) := .one (by omega)
                have hmt := hone.tbl_same hu fun i hi => by rwa [(same_page (by omega)).1]
                refine wp.mono (ih (hu.congr hmt) (by rw [List.length_drop]; omega)) ?_
                rintro r s' ⟨k, hk, hst⟩
                have hk' : Stops s.mem p (PGROUNDDOWN va + PGSIZE)
                    (src.length - (PGSIZE - va % PGSIZE)) r k := by
                  rw [List.length_drop] at hk
                  exact hk.congr fun v => entry_congr hmt
                have hnext := hk'.next hacc hlt
                refine ⟨_, hnext, ?_⟩
                have hle := hk'.le
                rw [next_page va] at hst
                rw [List.take_add]
                refine hone.append hu (by rw [htake]; exact hst) fun i hi => hnext.good i ?_
                rw [htake, List.length_take_of_le (by rw [List.length_drop]; omega)] at hi
                exact hi
            · rw [addrOf_round_zero hacc, if_pos rfl]
              exact ⟨0, .none hpos hacc, .refl s p va⟩
          · simp

/-! ## `copyinstr` -/

/-- A string of `k` bytes and its terminator, in accessible pages. -/
structure Text (m : Nat → Page) (p va k : Nat) : Prop where
  nul : userByte m p (va + k) = 0
  body : ∀ j < k, userByte m p (va + j) ≠ 0
  good : ∀ j ≤ k, Accessible m p ((va + j) / PGSIZE)

/-- The first `k` bytes hold no terminator. -/
def NoNul (m : Nat → Page) (p va k : Nat) : Prop :=
  ∀ j < k, userByte m p (va + j) ≠ 0 ∧ Accessible m p ((va + j) / PGSIZE)

theorem Text.of_noNul (h : NoNul m p va k) (h0 : userByte m p (va + k) = 0)
    (ha : Accessible m p ((va + k) / PGSIZE)) : Text m p va k where
  nul := h0
  body := fun j hj => (h j hj).1
  good := fun j hj => by
    rcases Nat.lt_or_eq_of_le hj with hj | rfl
    · exact (h j hj).2
    · exact ha

theorem NoNul.add (h : NoNul m p va n) (h' : NoNul m p (va + n) k) : NoNul m p va (n + k) := by
  intro j hj
  by_cases hjn : j < n
  · exact h j hjn
  · have h1 := h' (j - n) (by omega)
    rwa [Nat.add_assoc, Nat.add_sub_of_le (Nat.not_lt.mp hjn)] at h1

theorem Text.noNul (h : Text m p va k) : NoNul m p va k :=
  fun j hj => ⟨h.body j hj, h.good j (Nat.le_of_lt hj)⟩

/-- A string is not found if the search stops before its end. -/
theorem NoNul.not_text (h : NoNul m p va n) (hn : n ≤ len)
    (hstop : n = len ∨ ¬ Accessible m p ((va + n) / PGSIZE)) (hk : k < len) :
    ¬ Text m p va k := by
  intro ht
  have hnk : n ≤ k := by
    by_contra hlt
    exact (h k (by omega)).1 ht.nul
  rcases hstop with rfl | hbad
  · omega
  · exact hbad (ht.good n hnk)

/-- The bytes before the first NUL of a range. -/
theorem takeWhile_userBytes (m : Nat → Page) (p va n : Nat) :
    (∃ k < n, userByte m p (va + k) = 0 ∧ (∀ j < k, userByte m p (va + j) ≠ 0) ∧
        (userBytes m p va n).takeWhile (· ≠ 0) = userBytes m p va k) ∨
      (∀ j < n, userByte m p (va + j) ≠ 0) ∧
        (userBytes m p va n).takeWhile (· ≠ 0) = userBytes m p va n := by
  induction n with
  | zero => exact .inr ⟨fun _ hj => absurd hj (Nat.not_lt_zero _), rfl⟩
  | succ n ih =>
      have hsnoc : userBytes m p va (n + 1) = userBytes m p va n ++ [userByte m p (va + n)] :=
        userBytes_add m p va n 1
      rw [hsnoc]
      rcases ih with ⟨k, hk, h0, hbody, htake⟩ | ⟨hbody, htake⟩
      · refine .inl ⟨k, by omega, h0, hbody, ?_⟩
        rw [List.takeWhile_append, htake, if_neg]
        rw [length_userBytes, length_userBytes]
        omega
      · rw [List.takeWhile_append, htake, if_pos rfl]
        by_cases h0 : userByte m p (va + n) = 0
        · refine .inl ⟨n, Nat.lt_succ_self n, h0, hbody, ?_⟩
          simp [h0]
        · refine .inr ⟨fun j hj => ?_, by simp [h0]⟩
          rcases Nat.lt_or_eq_of_le (Nat.le_of_lt_succ hj) with hj | rfl
          · exact hbody j hj
          · exact h0

/-- What `copyinstr` returns and the bytes it stores. -/
def Fetched (m : Nat → Page) (p va max : Nat) (r : Int) (bs : List UInt8) : Prop :=
  (r = 0 ∧ ∃ k < max, Text m p va k ∧ bs = userBytes m p va (k + 1)) ∨
    r = -1 ∧ ∃ k ≤ max, NoNul m p va k ∧ bs = userBytes m p va k ∧
      (k = max ∨ ¬ Accessible m p ((va + k) / PGSIZE))

/-- The search goes on after `n` bytes. -/
theorem Fetched.next {max : Nat} (hn : NoNul m p va n) (hmax : n ≤ max)
    (h : Fetched m p (va + n) (max - n) r bs) :
    Fetched m p va max r (userBytes m p va n ++ bs) := by
  rcases h with ⟨h0, k, hk, ht, hbs⟩ | ⟨h1, k, hk, hno, hbs, hstop⟩
  · refine .inl ⟨h0, n + k, by omega, .of_noNul (hn.add ht.noNul) ?_ ?_, ?_⟩
    · rw [← Nat.add_assoc]
      exact ht.nul
    · rw [← Nat.add_assoc]
      exact ht.good k (Nat.le_refl k)
    · rw [hbs, Nat.add_assoc, userBytes_add m p va n]
  · refine .inr ⟨h1, n + k, by omega, hn.add hno, by rw [hbs, userBytes_add], ?_⟩
    rcases hstop with rfl | hbad
    · exact .inl (by omega)
    · rw [← Nat.add_assoc]
      exact .inr hbad

theorem copyinstrLoop_fetched {max : Nat} (hu : UserPages s.mem p) (hf : max ≤ fuel) :
    wp (copyinstrLoop p fuel va max dst) (fun r s' => s' = s ∧ ∃ bs, r.2 = dst ++ bs ∧
      Fetched s.mem p va max r.1 bs) E s := by
  have hnil : ∀ va, Fetched s.mem p va 0 (-1) [] := fun va =>
    .inr ⟨rfl, 0, Nat.le_refl _, fun _ hj => absurd hj (Nat.not_lt_zero _), rfl, .inl rfl⟩
  induction fuel generalizing va max dst with
  | zero =>
      obtain rfl : max = 0 := Nat.le_zero.mp hf
      exact ⟨rfl, [], (List.append_nil dst).symm, hnil va⟩
  | succ fuel ih =>
      cases max with
      | zero => exact ⟨rfl, [], (List.append_nil dst).symm, hnil va⟩
      | succ max =>
          have hm := mod_pgsize_lt va
          rw [copyinstrLoop, wp_bind, wp_walkaddr]
          · by_cases hacc : Accessible s.mem p (va / PGSIZE)
            · rw [addrOf_round hacc, if_neg (hu.ne_zero hacc), wp_bind, wp_get]
              simp only [sub_PGROUNDDOWN]
              generalize hn : min (PGSIZE - va % PGSIZE) (max + 1) = n
              have hpage : ∀ j < n, Accessible s.mem p ((va + j) / PGSIZE) := fun j hj => by
                rwa [(same_page (by omega)).1]
              rw [← userBytes_page (by omega)]
              rcases takeWhile_userBytes s.mem p va n with ⟨k, hk, h0, hbody, htake⟩ |
                ⟨hbody, htake⟩
              · rw [htake, length_userBytes, if_pos hk]
                refine ⟨rfl, userBytes s.mem p va k ++ [0], List.append_assoc _ _ _, .inl
                  ⟨rfl, k, by omega, ⟨h0, hbody, fun j hj => hpage j (by omega)⟩, ?_⟩⟩
                rw [userBytes_add, ← h0]
                rfl
              · have hno : NoNul s.mem p va n := fun j hj => ⟨hbody j hj, hpage j hj⟩
                rw [htake, length_userBytes, if_neg (Nat.lt_irrefl n)]
                by_cases hlast : max + 1 ≤ PGSIZE - va % PGSIZE
                · obtain rfl : n = max + 1 := by omega
                  rw [Nat.sub_self]
                  have hend : copyinstrLoop p fuel (PGROUNDDOWN va + PGSIZE) 0
                      (dst ++ userBytes s.mem p va (max + 1)) =
                      pure (-1, dst ++ userBytes s.mem p va (max + 1)) := by
                    cases fuel <;> rfl
                  rw [hend, wp_pure]
                  exact ⟨rfl, _, rfl, .inr ⟨rfl, _, Nat.le_refl _, hno, rfl, .inl rfl⟩⟩
                · obtain rfl : n = PGSIZE - va % PGSIZE := by omega
                  rw [next_page va]
                  refine wp.mono (ih (by omega)) ?_
                  rintro r s' ⟨rfl, bs, hr, hf'⟩
                  exact ⟨rfl, _, by rw [hr, List.append_assoc], hf'.next hno (by omega)⟩
            · rw [addrOf_round_zero hacc, if_pos rfl]
              exact ⟨rfl, [], (List.append_nil dst).symm, .inr ⟨rfl, 0, Nat.zero_le _,
                fun _ hj => absurd hj (Nat.not_lt_zero _), rfl, .inr hacc⟩⟩
          · simp

theorem Fetched.zero_iff {max : Nat} (h : Fetched m p va max r bs) :
    r = 0 ↔ ∃ k < max, Text m p va k := by
  rcases h with ⟨rfl, k, hk, ht, -⟩ | ⟨rfl, n, hn, hno, -, hstop⟩
  · exact ⟨fun _ => ⟨k, hk, ht⟩, fun _ => rfl⟩
  · exact ⟨(by cases ·), fun ⟨k, hk, ht⟩ => absurd ht (hno.not_text hn hstop hk)⟩

theorem Text.unique {k' : Nat} (h : Text m p va k) (h' : Text m p va k') : k = k' := by
  rcases Nat.lt_trichotomy k k' with hlt | heq | hgt
  · exact absurd h.nul (h'.body k hlt)
  · exact heq
  · exact absurd h'.nul (h.body k' hgt)

theorem Fetched.text {max : Nat} (h : Fetched m p va max r bs) (hk : k < max) (ht : Text m p va k) :
    bs = userBytes m p va (k + 1) := by
  rcases h with ⟨-, k', -, ht', hbs⟩ | ⟨-, n, hn, hno, -, hstop⟩
  · rw [hbs, ht'.unique ht]
  · exact absurd ht (hno.not_text hn hstop hk)

theorem Fetched.length_le {max : Nat} (h : Fetched m p va max r bs) : bs.length ≤ max := by
  rcases h with ⟨-, k, hk, -, rfl⟩ | ⟨-, k, hk, -, rfl, -⟩
  · rw [length_userBytes]
    omega
  · rwa [length_userBytes]

/-! ## The copies -/

/-- The copies transfer exactly the accessible part of their range. -/
theorem user_copies (s : Machine) (p : Nat) (h : UserPages s.mem p) (E : Panic → Prop) :
    (∀ va len, wp (copyin p va len) (fun r s' => s' = s ∧ ∃ k, Copied s.mem p va len r.1 k ∧
      r.2 = userBytes s.mem p va k) E s) ∧
    (∀ va src, wp (copyout p va src) (fun r s' => ∃ k, Copied s.mem p va src.length r k ∧
      Stored s s' p va (src.take k)) E s) ∧
    (∀ va max, wp (copyinstr p va max) (fun r s' => s' = s ∧ (r.1 = 0 ∨ r.1 = -1) ∧
      (r.1 = 0 ↔ ∃ k < max, Text s.mem p va k) ∧
      (∀ k < max, Text s.mem p va k → r.2 = userBytes s.mem p va (k + 1)) ∧
      r.2.length ≤ max) E s) := by
  refine ⟨fun va len => ?_, fun va src => ?_, fun va max => ?_⟩
  · refine wp.mono (copyinLoop_stops h (Nat.le_refl _)) ?_
    rintro r s' ⟨hs, k, hk, hr⟩
    exact ⟨hs, k, hk.copied, hr⟩
  · refine wp.mono (copyoutLoop_stops h (Nat.le_refl _)) ?_
    rintro r s' ⟨k, hk, hst⟩
    exact ⟨k, hk.copied, hst⟩
  · refine wp.mono (copyinstrLoop_fetched h (Nat.le_refl _)) ?_
    rintro ⟨r, out⟩ s' ⟨hs, bs, hbs, hf⟩
    rw [List.nil_append] at hbs
    simp only at hbs hf ⊢
    subst hbs
    refine ⟨hs, ?_, hf.zero_iff, fun k hk ht => hf.text hk ht, hf.length_le⟩
    rcases hf with hf | hf
    · exact .inl hf.1
    · exact .inr hf.1

/-! ## The page tables of processes -/

theorem Space.accessible_lt (hs : Space m p np fr tr) (hfr : NoUser fr) (htr : NoUser tr)
    (h : Accessible m p v) : v < np := by
  obtain ⟨hlt, hv, hu⟩ := h
  have hv26 := page_lt hlt
  rw [Nat.mul_div_cancel _ (by decide)] at hv26
  by_contra hc
  by_cases h1 : v = framePage
  · rw [h1, hs.frame] at hu
    exact hu hfr
  · by_cases h2 : v = trampPage
    · rw [h2, hs.tramp] at hu
      exact hu htr
    · rw [hs.rest v (Nat.le_of_not_lt hc) (lt_npte hv26) h1 h2] at hv
      exact not_valid_zero hv

/-- In an address space that owns its pages the user pages are as the copies need
them. -/
theorem Space.userPages (hs : Space s.mem p np fr tr) (hfr : NoUser fr) (htr : NoUser tr)
    (ho : Owned g.IsPage s (space s.mem p np)) :
    UserPages s.mem p := by
  have hmem : ∀ v, Accessible s.mem p v → PTE2PA (entry s.mem p v) ∈ targets s.mem p 0 np :=
    fun v hv => mem_targets (hs.accessible_lt hfr htr hv)
  have hn := List.nodup_append.mp ho.nodup_left
  refine ⟨fun v hv => ?_, fun v w hv hw he => ?_, fun v hv hm => ?_⟩
  · obtain ⟨-, h2, h3⟩ := ho.right.mem_range (hmem v hv)
    exact ⟨g.kernbase_le.trans h2, h3⟩
  · exact List.inj_on_of_nodup_map hn.2.1
      (List.mem_range'_1.mpr ⟨Nat.zero_le v, by have := hs.accessible_lt hfr htr hv; omega⟩)
      (List.mem_range'_1.mpr ⟨Nat.zero_le w, by have := hs.accessible_lt hfr htr hw; omega⟩) he
  · exact hn.2.2 _ hm _ (hmem v hv) rfl

theorem Inv.userPages {n : Nat} {safe : Fin n → Int → Prop} {rest pipes : List Nat}
    {hand : List (Fin NFILE)} {s : Sys n} {q : Fin n} (h : Inv g safe rest pipes hand s)
    (hq : (s.proc q).state ≠ .unused) : UserPages s.kern.mem (s.proc q).pagetable := by
  have hpt := ((h.procs q).live hq).2
  exact ((h.procs q).space hpt).userPages (noUser_framePte _) noUser_trampPte (h.owned_space hpt)

/-- The first instruction of every process that is alive after boot. -/
theorem user_copies_boot : ∃ taken s₀,
    bootZeroed smallLayout = .ok (taken, s₀) ∧
      ∀ q, (s₀.proc q).state ≠ .unused → UserPages s₀.kern.mem (s₀.proc q).pagetable ∧
        wp (copyin (s₀.proc q).pagetable 0 4) (fun r s' => s' = s₀.kern ∧ ∃ k,
          Copied s₀.kern.mem (s₀.proc q).pagetable 0 4 r.1 k ∧
            r.2 = userBytes s₀.kern.mem (s₀.proc q).pagetable 0 k) (fun _ => False) s₀.kern := by
  obtain ⟨taken, s₀, hb, pipes, hg⟩ :=
    boot_ok (n := 63) smallLayout (fun _ => Page.fill 0) (fun _ _ => False) fun _ _ => id
  refine ⟨taken, s₀, hb, fun q hq => ⟨hg.userPages hq, ?_⟩⟩
  exact (user_copies s₀.kern _ (hg.userPages hq) _).1 0 4

end Xv6.Vm
