import Xv6.Vm.Arguments

/-!
# The program that `exec` loads

The program headers of a file say which bytes of it go where.  `exec` reads the headers one after
the other and copies the bytes of each segment over what was loaded before, so a byte of the new
memory is from the last header that covers it, and zero if there is none.

The offsets in the headers have 64 bits, but `exec` has an `int` for the offset of the next header
and `loadseg` has a `uint` for the offset of the segment.  An offset of `2 ^ 32` or more loses
its upper half there, and `exec` reads another part of the file.
-/

namespace Xv6.Vm

open Hoare FreeList

/-! ## What a file describes -/

/-- `readi` for a file with the contents `data`; `off` and `n` are `uint`. -/
def fileOf (data : List UInt8) : FileData := fun off n =>
  if data.length < off ∨ (off + n) % 2 ^ 32 < off then [] else (data.drop off).take n

/-- The program header at an offset of the file. -/
def headerAt (data : List UInt8) (off : Nat) : Option Proghdr :=
  if off + proghdrSize ≤ data.length then some (ofBytes ((data.drop off).take proghdrSize))
  else none

/-- `k` program headers one after the other. -/
def headersFrom (data : List UInt8) : Nat → Nat → Option (List Proghdr)
  | 0, _ => some []
  | k + 1, off =>
      (headerAt data off).bind fun ph =>
        (headersFrom data k ((off + proghdrSize) % 2 ^ 64)).map (ph :: ·)

/-- The program headers of a file. -/
def headers (data : List UInt8) : Option (List Proghdr) :=
  headersFrom data (elfhdr (fileOf data)).phnum (elfhdr (fileOf data)).phoff

/-- The byte at `va` is in the file, for a segment to be loaded. -/
def Proghdr.Covers (ph : Proghdr) (va : Nat) : Prop :=
  Proghdr.type ph = ELF_PROG_LOAD ∧ Proghdr.vaddr ph ≤ va ∧
    va < Proghdr.vaddr ph + Proghdr.filesz ph

instance (ph : Proghdr) (va : Nat) : Decidable (Proghdr.Covers ph va) :=
  inferInstanceAs (Decidable (_ ∧ _))

/-- The last header that covers `va`. -/
def lastCovering (hs : List Proghdr) (va : Nat) : Option Proghdr :=
  hs.reverse.find? fun ph => Proghdr.Covers ph va

/-- The top of the highest segment to be loaded. -/
def topOf (hs : List Proghdr) : Nat :=
  (hs.map fun ph =>
    if Proghdr.type ph = ELF_PROG_LOAD then Proghdr.vaddr ph + Proghdr.memsz ph else 0).foldl max 0

/-- The memory is what the headers of the file describe. -/
def Described (data : List UInt8) (m : Nat → Page) (p : Nat) : Prop :=
  ∃ hs, headers data = some hs ∧ ∀ va < topOf hs,
    match lastCovering hs va with
    | some ph => data[Proghdr.off ph + (va - Proghdr.vaddr ph)]? = some (userByte m p va)
    | none => userByte m p va = 0

/-- The offsets that matter have 32 bits: the one of the headers, and those of the segments that
are seen in memory. -/
def OffsetsFit (data : List UInt8) : Prop :=
  ((elfhdr (fileOf data)).phnum = 0 ∨ (elfhdr (fileOf data)).phoff < 2 ^ 32) ∧
    ∀ hs, headers data = some hs → ∀ va ph, lastCovering hs va = some ph →
      Proghdr.off ph < 2 ^ 32

variable {g : Layout} {s s₁ s' : Machine} {E : Panic → Prop} {m : Nat → Page}
variable {p v a n sp va sz np fr tr off k : Nat} {argv ustack : List Nat} {data : List UInt8}
variable {hs : List Proghdr} {ph : Proghdr} {offset : Nat} {src : List UInt8}

theorem lastCovering_snoc (hs : List Proghdr) (ph : Proghdr) (va : Nat) :
    lastCovering (hs ++ [ph]) va =
      if Proghdr.Covers ph va then some ph else lastCovering hs va := by
  rw [lastCovering, List.reverse_append, List.reverse_singleton, List.singleton_append,
    List.find?_cons]
  by_cases h : Proghdr.Covers ph va
  · rw [if_pos h, decide_eq_true h]
  · rw [if_neg h, decide_eq_false h]
    rfl

theorem topOf_snoc (hs : List Proghdr) (ph : Proghdr) :
    topOf (hs ++ [ph]) = max (topOf hs)
      (if Proghdr.type ph = ELF_PROG_LOAD then Proghdr.vaddr ph + Proghdr.memsz ph else 0) := by
  rw [topOf, List.map_append, List.foldl_append]
  rfl

/-! ## Reading -/

/-- A read that gets all that it asks for. -/
theorem readi_fileOf (h : (readi (fileOf data) off n).length = n) :
    readi (fileOf data) off n = (data.drop off).take n ∧ (0 < n → off + n ≤ data.length) := by
  rw [readi, fileOf] at h ⊢
  split at h
  next hbad =>
    rw [List.take_nil, List.length_nil] at h
    subst h
    rw [if_pos hbad]
    exact ⟨by simp, fun h0 => absurd h0 (Nat.lt_irrefl 0)⟩
  next hgood =>
    rw [if_neg hgood, List.take_take, Nat.min_self]
    rw [List.take_take, Nat.min_self, List.length_take, List.length_drop] at h
    exact ⟨rfl, fun h0 => by omega⟩

/-! ## Segments -/

theorem Space.accessible (hs : Space s.mem p np fr tr) (hu : AllUser s.mem p np)
    (ho : Owned g.IsPage s (space s.mem p np)) (hv : v < np) : Accessible s.mem p v := by
  have hnp : np ≤ ramPages := np_le ho
  have hlt := ramPages_lt
  have hfp : framePage = 2 ^ 26 - 2 := rfl
  exact ⟨page_lt_maxva (by omega), (hs.user v hv).valid, hu v hv⟩

/-- The loop of `loadseg` stores the bytes of the segment from the page `k` on. -/
theorem loadsegLoop_full (hd : data.length < 2 ^ 32) (hs : Space s.mem p np fr tr) (hfr : NoUser fr)
    (htr : NoUser tr) (hu : AllUser s.mem p np) (ho : Owned g.IsPage s (space s.mem p np))
    (hv : v + npages sz ≤ np) (hn : npages sz = k + n)
    (hoff : 0 < n → offset + k * PGSIZE < 2 ^ 32) :
    wp (loadsegLoop p (v * PGSIZE) (fileOf data) offset sz n (k * PGSIZE))
      (fun r s' => r < 0 ∨ (k * PGSIZE < sz → offset + sz ≤ data.length) ∧
        Stored s s' p ((v + k) * PGSIZE)
          ((data.drop (offset + k * PGSIZE)).take (sz - k * PGSIZE))) E s := by
  have hsz : npages sz = (sz + 4095) / 4096 := rfl
  induction n generalizing k s with
  | zero =>
      have hk : k * PGSIZE = 4096 * k := Nat.mul_comm ..
      have hle : sz - k * PGSIZE = 0 := by omega
      rw [loadsegLoop, wp_pure, hle, List.take_zero]
      exact .inr ⟨fun hlt => by omega, .refl _ _ _⟩
  | succ n ih =>
      have hpg : PGSIZE = 4096 := rfl
      have hk : k * PGSIZE = 4096 * k := Nat.mul_comm ..
      have hk' : (k + 1) * PGSIZE = 4096 * (k + 1) := Nat.mul_comm ..
      have hlt : k * PGSIZE < sz := by omega
      have hoff := hoff (Nat.succ_pos n)
      have hnp : np ≤ ramPages := np_le ho
      have hram := ramPages_lt
      have hfp : framePage = 2 ^ 26 - 2 := rfl
      have hgood : ∀ i < sz - k * PGSIZE, Accessible s.mem p (((v + k) * PGSIZE + i) / PGSIZE) := by
        intro i hi
        refine hs.accessible hu ho ?_
        have hdiv : i / PGSIZE = i / 4096 := rfl
        rw [Nat.mul_comm, Nat.mul_add_div (by decide)]
        omega
      have hacc : Accessible s.mem p (v + k) := hs.accessible hu ho (by omega)
      have hup := hs.userPages hfr htr ho
      have hmem : PTE2PA (entry s.mem p (v + k)) ∈ targets s.mem p 0 np := mem_targets (by omega)
      have hpage := ho.mem_range (List.mem_append_right _ hmem)
      rw [loadsegLoop, wp_bind, wp_walkaddr, ← Nat.add_mul,
        addrOf_page (by omega) hacc.2.1 hacc.2.2, if_neg hpage.ne_zero]
      simp only
      rw [Nat.mod_eq_of_lt hoff, wp_bind, wp_storeBytes]
      obtain ⟨len, hlen⟩ : ∃ len, (if sz - k * PGSIZE < PGSIZE then sz - k * PGSIZE else PGSIZE) =
        len := ⟨_, rfl⟩
      rw [hlen]
      split
      next => exact .inl (by decide)
      next hfull =>
      obtain ⟨hread, hin⟩ := readi_fileOf (not_not.mp hfull)
      have hbytes : ((data.drop (offset + k * PGSIZE)).take len).length = len := by
        rw [← hread]
        exact not_not.mp hfull
      rw [hread]
      have hone : Stored s _ p ((v + k) * PGSIZE) ((data.drop (offset + k * PGSIZE)).take len) :=
        .one (by rw [Nat.mul_mod_left, hbytes]; split at hlen <;> omega)
      rw [Nat.mul_mod_left, Nat.mul_div_cancel _ (by decide)] at hone
      by_cases hlast : sz - k * PGSIZE < PGSIZE
      · -- the last page of the segment
        rw [if_pos hlast] at hlen
        obtain rfl : n = 0 := by omega
        rw [loadsegLoop, wp_pure, hlen]
        exact .inr ⟨fun _ => by have := hin (by omega); omega, hone⟩
      · rw [if_neg hlast] at hlen
        subst hlen
        have hin := hin (by decide)
        have hw := UserWrite.set ho hmem
          ((s.mem (PTE2PA (entry s.mem p (v + k)))).write 0
            ((data.drop (offset + k * PGSIZE)).take PGSIZE))
        have hm := hw.tbl_same ho
        have hs₁ := hs.congr hm
        rw [succ_mul_pgsize]
        refine (ih hs₁ (hu.congr hm) (ho.turns (hw.turns ho)) (by omega)
          (fun _ => by omega)).mono ?_
        rintro r s' (hr | ⟨hle, hrest⟩)
        · exact .inl hr
        · refine .inr ⟨fun _ => ?_, ?_⟩
          · by_cases hmore : (k + 1) * PGSIZE < sz
            · exact hle hmore
            · omega
          · have hsplit : (data.drop (offset + k * PGSIZE)).take (sz - k * PGSIZE) =
                (data.drop (offset + k * PGSIZE)).take PGSIZE ++
                  (data.drop (offset + (k + 1) * PGSIZE)).take (sz - (k + 1) * PGSIZE) := by
              have h1 : sz - k * PGSIZE = PGSIZE + (sz - (k + 1) * PGSIZE) := by omega
              have h2 : offset + (k + 1) * PGSIZE = offset + k * PGSIZE + PGSIZE := by omega
              rw [h1, List.take_add, List.drop_drop, h2]
            have hva : (v + (k + 1)) * PGSIZE = (v + k) * PGSIZE +
                ((data.drop (offset + k * PGSIZE)).take PGSIZE).length := by
              rw [hbytes, ← Nat.add_assoc, Nat.succ_mul]
            rw [hva] at hrest
            rw [hsplit]
            refine hone.append hup hrest fun i hi => hgood i ?_
            rw [hbytes] at hi
            have hrl : ((data.drop (offset + (k + 1) * PGSIZE)).take
              (sz - (k + 1) * PGSIZE)).length ≤ sz - (k + 1) * PGSIZE := List.length_take_le _ _
            omega

theorem loadseg_full (hd : data.length < 2 ^ 32) (hs : Space s.mem p np fr tr) (hfr : NoUser fr)
    (htr : NoUser tr) (hu : AllUser s.mem p np) (ho : Owned g.IsPage s (space s.mem p np))
    (hv : v + npages sz ≤ np) (hoff : offset < 2 ^ 32) :
    wp (loadseg p (v * PGSIZE) (fileOf data) offset sz)
      (fun r s' => r < 0 ∨ (0 < sz → offset + sz ≤ data.length) ∧
        Stored s s' p (v * PGSIZE) ((data.drop offset).take sz)) E s := by
  have h : wp (loadsegLoop p (v * PGSIZE) (fileOf data) offset sz (npages sz) (0 * PGSIZE)) _ E s :=
    loadsegLoop_full hd hs hfr htr hu ho hv (Nat.zero_add _).symm fun _ => by omega
  rw [Nat.zero_mul] at h
  exact h

/-- The user memory after a store. -/
theorem Stored.userByte_eq {bs : List UInt8} (hu : UserPages s.mem p) (h : Stored s s' p va bs)
    (hgood : ∀ i < bs.length, Accessible s.mem p ((va + i) / PGSIZE))
    (ha : Accessible s.mem p (a / PGSIZE)) :
    userByte s'.mem p a =
      if va ≤ a ∧ a < va + bs.length then bs.getD (a - va) 0 else userByte s.mem p a := by
  have hpl : place s'.mem p a = place s.mem p a := by
    rw [place, entry_congr (h.tbl_same hu hgood), place]
  rw [userByte, hpl]
  split
  next hin =>
    have hget := h.inside (a - va) (by omega)
    rw [Nat.add_sub_of_le hin.1] at hget
    rw [hget, List.getD_eq_getElem _ _ (by omega)]
  next hout =>
    refine h.outside _ fun i hi he => hout ?_
    have := place_inj hu ha (hgood i hi) he
    omega

/-! ## The loop over the headers -/

/-- The byte of the new memory, as `exec` loads it. -/
def loadedByte (data : List UInt8) (hs : List Proghdr) (va : Nat) : UInt8 :=
  match lastCovering hs va with
  | some ph => data.getD (Proghdr.off ph % 2 ^ 32 + (va - Proghdr.vaddr ph)) 0
  | none => 0

/-- The headers `hs` were loaded, into an address space that now has `sz` bytes. -/
structure Loaded (data : List UInt8) (m : Nat → Page) (p sz : Nat) (hs : List Proghdr) : Prop where
  top : topOf hs = sz
  byte : ∀ va < npages sz * PGSIZE, userByte m p va = loadedByte data hs va
  inside : ∀ ph ∈ hs, Proghdr.type ph = ELF_PROG_LOAD → Proghdr.filesz ph ≤ Proghdr.memsz ph ∧
    (0 < Proghdr.filesz ph → Proghdr.off ph % 2 ^ 32 + Proghdr.filesz ph ≤ data.length)

theorem Loaded.nil (data : List UInt8) (m : Nat → Page) (p : Nat) : Loaded data m p 0 [] where
  top := rfl
  byte := fun va hva => by rw [show npages 0 = 0 from rfl, Nat.zero_mul] at hva; omega
  inside := fun ph hph => by cases hph

theorem le_topOf (hph : ph ∈ hs) (hload : Proghdr.type ph = ELF_PROG_LOAD) :
    Proghdr.vaddr ph + Proghdr.memsz ph ≤ topOf hs := by
  induction hs using List.reverseRecOn with
  | nil => cases hph
  | append_singleton hs ph' ih =>
      rw [topOf_snoc]
      rcases List.mem_append.mp hph with hin | hin
      · exact (ih hin).trans (Nat.le_max_left _ _)
      · rw [List.mem_singleton.mp hin] at hload ⊢
        rw [if_pos hload]
        exact Nat.le_max_right _ _

theorem lastCovering_mem (h : lastCovering hs va = some ph) : ph ∈ hs ∧ Proghdr.Covers ph va := by
  have hcov := List.find?_some h
  exact ⟨List.mem_reverse.mp (List.mem_of_find?_eq_some h), of_decide_eq_true hcov⟩

/-- Nothing was loaded above the top. -/
theorem Loaded.above (h : Loaded data m p sz hs) (hva : sz ≤ va) : lastCovering hs va = none := by
  cases hl : lastCovering hs va with
  | none => rfl
  | some ph =>
      obtain ⟨hmem, hload, -, hlt⟩ := lastCovering_mem hl
      have h1 := le_topOf hmem hload
      have h2 := (h.inside ph hmem hload).1
      have h3 := h.top
      omega

/-- More pages, all zero. -/
theorem Loaded.grow {newsz : Nat} {m' : Nat → Page} {perm : Nat} (h : Loaded data m p sz hs)
    (hk : Kept m m' p (npages sz))
    (hnew : ∀ v, npages sz ≤ v → v < npages newsz → NewPage m' p v perm) :
    ∀ va < npages newsz * PGSIZE, userByte m' p va = loadedByte data hs va := by
  intro va hva
  have hpage : va / PGSIZE < npages newsz := (Nat.div_lt_iff_lt_mul (by decide)).mpr hva
  by_cases hold : va / PGSIZE < npages sz
  · rw [hk.userByte hold]
    exact h.byte va ((Nat.div_lt_iff_lt_mul (by decide)).mp hold)
  · have hsz : sz ≤ va := by
      rw [npages, PGSIZE] at hold
      omega
    rw [loadedByte, h.above hsz, userByte, byteOf, place, (hnew _ (Nat.not_lt.mp hold) hpage).zero]
    exact dif_pos (mod_pgsize_lt va)

/-- A segment was stored over what was loaded before. -/
theorem Loaded.store (hu : UserPages s.mem p) (hacc : ∀ v < npages sz, Accessible s.mem p v)
    (htop : topOf (hs ++ [ph]) = sz)
    (hbyte : ∀ va < npages sz * PGSIZE, userByte s.mem p va = loadedByte data hs va)
    (hin : ∀ ph ∈ hs, Proghdr.type ph = ELF_PROG_LOAD → Proghdr.filesz ph ≤ Proghdr.memsz ph ∧
      (0 < Proghdr.filesz ph → Proghdr.off ph % 2 ^ 32 + Proghdr.filesz ph ≤ data.length))
    (hload : Proghdr.type ph = ELF_PROG_LOAD) (hle : Proghdr.filesz ph ≤ Proghdr.memsz ph)
    (hfile : 0 < Proghdr.filesz ph → Proghdr.off ph % 2 ^ 32 + Proghdr.filesz ph ≤ data.length)
    (hst : Stored s s' p (Proghdr.vaddr ph)
      ((data.drop (Proghdr.off ph % 2 ^ 32)).take (Proghdr.filesz ph))) :
    Loaded data s'.mem p sz (hs ++ [ph]) where
  top := htop
  byte := by
    have hlen : ((data.drop (Proghdr.off ph % 2 ^ 32)).take (Proghdr.filesz ph)).length =
        Proghdr.filesz ph := by
      rw [List.length_take, List.length_drop]
      omega
    have hmax : Proghdr.vaddr ph + Proghdr.memsz ph ≤ topOf (hs ++ [ph]) :=
      le_topOf (List.mem_append_right _ List.mem_cons_self) hload
    intro va hva
    rw [hst.userByte_eq hu (fun i hi => hacc _ (div_lt_npages (by omega)))
      (hacc _ ((Nat.div_lt_iff_lt_mul (by decide)).mpr hva)), hlen, loadedByte, lastCovering_snoc]
    by_cases hc : Proghdr.Covers ph va
    · obtain ⟨-, h1, h2⟩ := hc
      rw [if_pos ⟨h1, h2⟩, if_pos ⟨hload, h1, h2⟩, List.getD_eq_getElem?_getD,
        List.getElem?_take_of_lt (by omega), List.getElem?_drop, ← List.getD_eq_getElem?_getD]
    · rw [if_neg fun h => hc ⟨hload, h⟩, if_neg hc]
      exact hbyte va hva
  inside := by
    intro ph' hph'
    rcases List.mem_append.mp hph' with hm | hm
    · exact hin ph' hm
    · rw [List.mem_singleton.mp hm]
      exact fun _ => ⟨hle, hfile⟩

/-- A header of another kind. -/
theorem Loaded.skip (h : Loaded data m p sz hs) (hne : Proghdr.type ph ≠ ELF_PROG_LOAD) :
    Loaded data m p sz (hs ++ [ph]) where
  top := by rw [topOf_snoc, if_neg hne, Nat.max_zero, h.top]
  byte := by
    intro va hva
    rw [loadedByte, lastCovering_snoc, if_neg fun hc => hne hc.1]
    exact h.byte va hva
  inside := by
    intro ph' hph' hload
    rcases List.mem_append.mp hph' with hm | hm
    · exact h.inside ph' hm hload
    · rw [List.mem_singleton.mp hm] at hload
      exact absurd hload hne

/-- The loop of `exec` over the program headers loads them all. -/
theorem loadProgram_full {done : List Proghdr} (hd : data.length < 2 ^ 32)
    (hs : Space s.mem p (npages sz) fr tr) (hfr : NoUser fr) (htr : NoUser tr)
    (hu : AllUser s.mem p (npages sz)) (ho : Owned g.IsPage s (space s.mem p (npages sz)))
    (hl : Loaded data s.mem p sz done) (hoff : off < 2 ^ 32) :
    wp (loadProgram g p (fileOf data) k off sz) (fun r s' => r.1 = true →
      ∃ hs, headersFrom data k off = some hs ∧ Loaded data s'.mem p r.2 (done ++ hs)) E s := by
  induction k generalizing s off sz done with
  | zero => exact fun _ => ⟨[], rfl, by rw [List.append_nil]; exact hl⟩
  | succ k ih =>
      have hfail : ∀ {sz : Nat} {P : Prop}, (false, sz).1 = true → P := fun h => by cases h
      rw [loadProgram]
      by_cases h1 : (readi (fileOf data) off proghdrSize).length ≠ proghdrSize
      · rw [if_pos h1]
        exact hfail
      obtain ⟨hread, hin⟩ := readi_fileOf (not_not.mp h1)
      have hin := hin (by decide)
      rw [if_neg h1, hread]
      have hph : headerAt data off = some (ofBytes ((data.drop off).take proghdrSize)) := if_pos hin
      generalize (ofBytes ((data.drop off).take proghdrSize) : Proghdr) = ph at hph ⊢
      -- the next header
      have hnext : (off + proghdrSize) % 2 ^ 32 = off + proghdrSize :=
        Nat.mod_eq_of_lt (by omega)
      have hnext' : (off + proghdrSize) % 2 ^ 64 = off + proghdrSize :=
        Nat.mod_eq_of_lt (by omega)
      have hcons : ∀ {hs}, headersFrom data k (off + proghdrSize) = some hs →
          headersFrom data (k + 1) off = some (ph :: hs) := by
        intro hs hhs
        rw [headersFrom, hph, Option.bind_some, hnext', hhs]
        rfl
      have hrest : ∀ {s : Machine} {sz : Nat}, Space s.mem p (npages sz) fr tr →
          AllUser s.mem p (npages sz) → Owned g.IsPage s (space s.mem p (npages sz)) →
          Loaded data s.mem p sz (done ++ [ph]) →
          wp (loadProgram g p (fileOf data) k (off + proghdrSize) sz) (fun r s' => r.1 = true →
            ∃ hs, headersFrom data (k + 1) off = some hs ∧
              Loaded data s'.mem p r.2 (done ++ hs)) E s := by
        intro s sz hs hu ho hl
        refine (ih hs hu ho hl (by omega)).mono fun r s' hr htrue => ?_
        obtain ⟨hs, hhs, hl'⟩ := hr htrue
        rw [List.append_assoc] at hl'
        exact ⟨ph :: hs, hcons hhs, hl'⟩
      rw [hnext]
      by_cases h2 : Proghdr.type ph ≠ ELF_PROG_LOAD
      · rw [if_pos h2]
        exact hrest hs hu ho (hl.skip h2)
      by_cases h3 : Proghdr.memsz ph < Proghdr.filesz ph
      · rw [if_neg h2, if_pos h3]
        exact hfail
      by_cases h4 : (Proghdr.vaddr ph + Proghdr.memsz ph) % 2 ^ 64 < Proghdr.vaddr ph
      · rw [if_neg h2, if_neg h3, if_pos h4]
        exact hfail
      by_cases h5 : Proghdr.vaddr ph % PGSIZE ≠ 0
      · rw [if_neg h2, if_neg h3, if_neg h4, if_pos h5]
        exact hfail
      · rw [if_neg h2, if_neg h3, if_neg h4, if_neg h5, wp_bind]
        refine (uvmalloc_spec (flags2perm_lt _) hs ho).mono ?_
        rintro r s₁ ⟨np, hcase, _, hs₁, ht₁, hk₁, hpages⟩
        have ho₁ := ho.turns ht₁
        by_cases hr : r = 0
        · rw [if_pos hr]
          exact hfail
        · rw [if_neg hr, wp_bind]
          obtain ⟨hmax, rfl⟩ := hcase.resolve_left fun h => hr h.1
          have hall : AllUser s₁.mem p (npages r) := fun v hv => by
            by_cases hvn : v < npages sz
            · rw [hk₁.entry v hvn]
              exact hu v hvn
            · exact (hpages v (Nat.le_of_not_lt hvn) hv).user
          have hmemsz : Proghdr.memsz ph < 2 ^ 64 := Bytes.Region.getLe_lt ph 40 8
          have hvaddr : Proghdr.vaddr ph < 2 ^ 64 := Bytes.Region.getLe_lt ph 16 8
          obtain ⟨hva, hle⟩ := segment_le hmemsz h3 h4 (not_not.mp h5)
            (hmax ▸ Nat.le_max_right sz _)
          -- the segment ends below the end of the memory
          have hsum : (Proghdr.vaddr ph + Proghdr.memsz ph) % 2 ^ 64 =
            Proghdr.vaddr ph + Proghdr.memsz ph := by omega
          have hram : npages r ≤ ramPages := np_le ho₁
          have hfilesz : Proghdr.filesz ph % 2 ^ 32 = Proghdr.filesz ph := by
            have hpages : ramPages = 32768 := rfl
            rw [npages, PGSIZE] at hram
            omega
          have htop : topOf (done ++ [ph]) = r := by
            rw [topOf_snoc, hl.top, if_pos (not_not.mp h2), ← hsum]
            exact hmax.symm
          rw [hva]
          refine ((loadseg_spec hs₁ hall ho₁ hle).and
            (loadseg_full hd hs₁ hfr htr hall ho₁ hle (Nat.mod_lt _ (by decide)))).mono ?_
          rintro x s₂ ⟨hw, hx⟩
          split
          next => exact hfail
          next hpos =>
            obtain ⟨hfile, hst⟩ := hx.resolve_left hpos
            rw [hfilesz] at hfile hst
            rw [← hva] at hst
            have hm := hw.tbl_same ho₁
            refine hrest (hs₁.congr hm) (hall.congr hm) (ho₁.turns (hw.turns ho₁)) ?_
            exact .store (hs₁.userPages hfr htr ho₁) (fun v hv => hs₁.accessible hall ho₁ hv) htop
              (hl.grow hk₁ hpages) hl.inside (not_not.mp h2) (Nat.not_lt.mp h3) hfile hst

/-! ## The stack is above the program -/

/-- A copy to an address that is not in the address space. -/
theorem copyout_far (hu : UserPages s.mem p) (hva : MAXVA ≤ va) (hne : src ≠ []) :
    wp (copyout p va src) (fun r s' => r < 0 ∧ s'.mem = s.mem) E s := by
  have hbad : ¬ Accessible s.mem p (va / PGSIZE) := by
    intro hacc
    have hlt := hacc.1
    have hmax : MAXVA = 2 ^ 38 := rfl
    rw [PGSIZE] at hlt
    omega
  refine (copyoutLoop_stops hu (Nat.le_refl _)).mono ?_
  rintro r s' ⟨k, hstop, hst⟩
  have hk : k = 0 := by
    by_contra hk
    exact hbad (hstop.good 0 (Nat.pos_of_ne_zero hk))
  subst hk
  refine ⟨?_, funext fun q => hst.page_eq fun i hi => absurd hi (Nat.not_lt_zero i)⟩
  rcases hstop.why with ⟨-, h0⟩ | ⟨rfl, -⟩
  · exact absurd (List.eq_nil_of_length_eq_zero h0.symm) hne
  · decide

/-- A push goes down, or below zero and around. -/
theorem pushDown_cases (hsp : sp < 2 ^ 40) (hn : n < 2 ^ 16) :
    pushDown sp n + n ≤ sp ∨ MAXVA ≤ pushDown sp n := by
  have hmax : MAXVA = 2 ^ 38 := rfl
  rw [pushDown]
  omega

/-- A push of some bytes to the stack page. -/
theorem push_page (hu : UserPages s.mem p) (ha : Accessible s.mem p v) (hhi : sp ≤ (v + 1) * PGSIZE)
    (hsrc : src ≠ []) (hlen : src.length < 2 ^ 16) (hlow : v * PGSIZE ≤ pushDown sp src.length) :
    wp (copyout p (pushDown sp src.length) src) (fun r s' => WritesBelow s s' p v sp ∧
      (r < 0 ∨ pushDown sp src.length ≤ sp)) E s := by
  have hmax := ha.1
  have hmaxva : MAXVA = 2 ^ 38 := rfl
  have hpg : PGSIZE = 4096 := rfl
  have hsucc : (v + 1) * PGSIZE = v * PGSIZE + PGSIZE := Nat.succ_mul ..
  rcases pushDown_cases (show sp < 2 ^ 40 by omega) hlen with hle | hfar
  · refine (copyout_page hu ha hlow (by omega)).mono ?_
    rintro r s' ⟨-, hw, -⟩
    exact ⟨hw.mono hle, .inr (by omega)⟩
  · refine (copyout_far hu hfar hsrc).mono ?_
    rintro r s' ⟨hr, hmem⟩
    refine ⟨⟨fun a _ => by rw [hmem], fun off _ => by rw [hmem]⟩, .inl hr⟩

theorem length_cString_le (pg : Page) : (cString pg).length ≤ PGSIZE := by
  refine ((List.takeWhile_sublist _).length_le).trans ?_
  rw [Bytes.Region.length_read]

/-- The strings go to the stack page, whatever they are. -/
theorem pushArgs_page (hu : UserPages s.mem p) (ha : Accessible s.mem p v)
    (hhi : sp ≤ (v + 1) * PGSIZE) (hcount : ustack.length ≤ MAXARG) :
    wp (pushArgs p (v * PGSIZE) argv sp ustack) (fun x s' => WritesBelow s s' p v sp ∧
      ∀ y, x = some y → y.1 ≤ sp ∧ y.2.length ≤ MAXARG) E s := by
  induction argv generalizing s sp ustack with
  | nil =>
      refine ⟨.refl _ _ _ _, fun y hy => ?_⟩
      cases hy
      exact ⟨Nat.le_refl _, hcount⟩
  | cons arg argv ih =>
      have hnone : ∀ {s' : Machine}, WritesBelow s s' p v sp → WritesBelow s s' p v sp ∧
          ∀ y : Nat × List Nat, none = some y → y.1 ≤ sp ∧ y.2.length ≤ MAXARG :=
        fun hw => ⟨hw, fun y hy => by cases hy⟩
      rw [pushArgs]
      split
      next => exact hnone (.refl _ _ _ _)
      next hfull =>
      rw [wp_bind, wp_get]
      simp only
      have htext := length_cString_le (s.mem arg)
      obtain ⟨text, hstring⟩ : ∃ text, cString (s.mem arg) = text := ⟨_, rfl⟩
      rw [hstring] at htext ⊢
      have hsrc : (text ++ [0]).length = text.length + 1 := by simp
      have hpg : PGSIZE = 4096 := rfl
      rw [← hsrc]
      split
      next => exact hnone (.refl _ _ _ _)
      next hlow =>
      rw [wp_bind]
      refine (push_page hu ha hhi (by simp) (by omega) (Nat.not_lt.mp hlow)).mono ?_
      rintro r s₁ ⟨hw, hr⟩
      split
      next => exact hnone hw
      next hpos =>
      have hle := hr.resolve_left hpos
      generalize pushDown sp (text ++ [0]).length = sp₁ at hle ⊢
      refine (ih (hu.congr (hw.tbl_same hu ha)) (hw.accessible hu ha) (by omega) ?_).mono ?_
      · rw [List.length_append, List.length_singleton]
        omega
      · rintro x s' ⟨hw', hx⟩
        refine ⟨hw.trans hu ha hw' hle, fun y hy => ?_⟩
        have h := hx y hy
        exact ⟨h.1.trans hle, h.2⟩

theorem pushPointers_page (hu : UserPages s.mem p) (ha : Accessible s.mem p v)
    (hhi : sp ≤ (v + 1) * PGSIZE) (hcount : ustack.length ≤ MAXARG) :
    wp (pushPointers p (v * PGSIZE) sp ustack) (fun _ s' => WritesBelow s s' p v sp) E s := by
  have hmaxarg : MAXARG = 32 := rfl
  have hsrc : ((ustack ++ [0]).flatMap (Bytes.toLe 8)).length = (ustack.length + 1) * 8 := by
    simp [List.length_flatMap]
    omega
  rw [pushPointers, ← hsrc]
  generalize (ustack ++ [0]).flatMap (Bytes.toLe 8) = src at hsrc ⊢
  split
  next => exact .refl _ _ _ _
  next hlow =>
  have hne : src ≠ [] := by
    rintro rfl
    simp at hsrc
  rw [wp_bind]
  refine (push_page hu ha hhi hne (by omega) (Nat.not_lt.mp hlow)).mono ?_
  rintro r s' ⟨hw, -⟩
  split <;> exact hw

theorem pushStack_page (hu : UserPages s.mem p) (ha : Accessible s.mem p v) :
    wp (pushStack p ((v + 1) * PGSIZE) argv)
      (fun _ s' => WritesBelow s s' p v ((v + 1) * PGSIZE)) E s := by
  have hbase : (v + 1) * PGSIZE - PGSIZE = v * PGSIZE := by rw [Nat.succ_mul, Nat.add_sub_cancel]
  rw [pushStack, hbase, wp_bind]
  refine (pushArgs_page hu ha (Nat.le_refl _) (by decide)).mono ?_
  rintro x s₁ ⟨hw, hx⟩
  cases x with
  | none => exact hw
  | some y =>
      obtain ⟨hle, hlen⟩ := hx y rfl
      refine (pushPointers_page (hu.congr (hw.tbl_same hu ha)) (hw.accessible hu ha) hle
        hlen).mono ?_
      exact fun _ s' hw' => hw.trans hu ha hw' hle

/-- The frames of an address space are different. -/
theorem frame_inj {w : Nat} (ho : Owned g.IsPage s (space s.mem p np)) (hv : v < np) (hw : w < np)
    (he : PTE2PA (entry s.mem p v) = PTE2PA (entry s.mem p w)) : v = w :=
  List.inj_on_of_nodup_map (List.nodup_append.mp ho.nodup_left).2.1
    (List.mem_range'_1.mpr ⟨Nat.zero_le v, by omega⟩)
    (List.mem_range'_1.mpr ⟨Nat.zero_le w, by omega⟩) he

/-- The stack leaves the program as it is. -/
theorem makeStack_keeps {top : Nat} (hs : Space s.mem p (npages sz) fr tr) (hfr : NoUser fr)
    (htr : NoUser tr) (ho : Owned g.IsPage s (space s.mem p (npages sz)))
    (hm : makeStack g p sz argv s = .ok ((some sp, top), s')) :
    Kept s.mem s'.mem p (npages sz) := by
  obtain ⟨s₁, hpages, h0, hpush⟩ := makeStack_inv hm
  obtain ⟨rfl, hs₁, ht, hacc, hk⟩ := ((stackPages_spec hs ho).of_ok
    hpages).resolve_left fun hl => h0 hl.1
  have ho₁ := ho.turns ht
  have hu := hs₁.userPages hfr htr ho₁
  have hw := (pushStack_page hu hacc).of_ok hpush
  refine hk.trans ⟨fun v _ => hw.entry_eq hu hacc, fun v hv => hw.page _ fun he => ?_⟩
  have := frame_inj ho₁ (show v < npages sz + 2 by omega) (by omega) he
  omega

/-! ## The program of the process -/

/-- What `exec` loads is what the headers describe exactly if the offsets fit. -/
theorem described_iff (hd : data.length < 2 ^ 32)
    (hhs : headersFrom data (elfhdr (fileOf data)).phnum
      ((elfhdr (fileOf data)).phoff % 2 ^ 32) = some hs)
    (hin : ∀ ph ∈ hs, Proghdr.type ph = ELF_PROG_LOAD → Proghdr.filesz ph ≤ Proghdr.memsz ph ∧
      (0 < Proghdr.filesz ph → Proghdr.off ph % 2 ^ 32 + Proghdr.filesz ph ≤ data.length))
    (hbyte : ∀ va < topOf hs, userByte m p va = loadedByte data hs va) :
    Described data m p ↔ OffsetsFit data := by
  unfold Described OffsetsFit headers
  generalize elfhdr (fileOf data) = elf at hhs ⊢
  -- the headers that `exec` reads are those of the file
  have hsame : elf.phnum = 0 ∨ elf.phoff < 2 ^ 32 →
      headersFrom data elf.phnum elf.phoff = some hs := by
    rintro (h | h)
    · rw [← hhs, h, headersFrom, headersFrom]
    · rwa [Nat.mod_eq_of_lt h] at hhs
  -- what a header covers is in the file
  have hcover : ∀ {va ph}, lastCovering hs va = some ph → va < topOf hs ∧
      Proghdr.off ph % 2 ^ 32 + (va - Proghdr.vaddr ph) < data.length := by
    intro va ph hph
    obtain ⟨hmem, hload, h1, h2⟩ := lastCovering_mem hph
    have h3 := le_topOf hmem hload
    have h4 := hin ph hmem hload
    have h5 := h4.2 (by omega)
    omega
  constructor
  · rintro ⟨hs', hhs', hdesc⟩
    have hfit : elf.phnum = 0 ∨ elf.phoff < 2 ^ 32 := by
      cases hnum : elf.phnum with
      | zero => exact .inl rfl
      | succ k =>
          rw [hnum, headersFrom, headerAt] at hhs'
          split at hhs'
          · exact .inr (by omega)
          · cases hhs'
    rw [hsame hfit] at hhs'
    cases hhs'
    refine ⟨hfit, fun hs₁ hhs₁ va ph hph => ?_⟩
    rw [hsame hfit] at hhs₁
    cases hhs₁
    have hva := hdesc va (hcover hph).1
    rw [hph] at hva
    have hlt := (List.getElem?_eq_some_iff.mp hva).1
    omega
  · rintro ⟨hfit, hoffs⟩
    refine ⟨hs, hsame hfit, fun va hva => ?_⟩
    have hb := hbyte va hva
    rw [loadedByte] at hb
    cases hph : lastCovering hs va with
    | none =>
        rw [hph] at hb
        exact hb
    | some ph =>
        rw [hph] at hb
        simp only at hb ⊢
        have hlt := (hcover hph).2
        rw [Nat.mod_eq_of_lt (hoffs hs (hsame hfit) va ph hph)] at hb hlt
        rw [hb, List.getD_eq_getElem _ _ hlt, List.getElem?_eq_getElem hlt]

section

variable {N : Nat} {safe : Fin N → Int → Prop} {rest pipes : List Nat} {hand : List (Fin NFILE)}
variable {σ σ' : Sys N} {q : Fin N} {ip : FileData} {pt top : Nat} {k k' : Machine}

/-- The program is loaded. -/
theorem Ready.loaded_full (h : Inv g safe rest pipes hand σ) (hq : (σ.proc q).state ≠ .unused)
    (hd : data.length < 2 ^ 32)
    (hr : Ready g (σ.proc q).trapframe σ.kern (fileOf data) pt sz k) :
    ∃ hs, headersFrom data (elfhdr (fileOf data)).phnum
      ((elfhdr (fileOf data)).phoff % 2 ^ 32) = some hs ∧ Loaded data k.mem pt sz hs := by
  obtain ⟨k₁, h₁, h₂⟩ := hr.loaded
  obtain ⟨hs₁, ht₁⟩ := Ready.table h hq hr.ne_zero h₁
  exact (loadProgram_full hd hs₁ (noUser_framePte _) noUser_trampPte
    (fun v hv => absurd hv (Nat.not_lt_zero v)) ((h.owned_proc q).turns (ht₁.frame _)).left
    (.nil _ _ _) (Nat.mod_lt _ (by decide))).of_ok h₂ rfl

/-- The memory of a process that has run `exec` is what the file describes exactly if the offsets
fit. -/
theorem Committed.described_iff {entry : Nat} (h : Inv g safe rest pipes hand σ)
    (hq : (σ.proc q).state ≠ .unused) (hd : data.length < 2 ^ 32)
    (hr : Ready g (σ.proc q).trapframe σ.kern (fileOf data) pt sz k)
    (hm : makeStack g pt sz argv k = .ok ((some sp, top), k'))
    (hc : Committed g σ σ' q pt top sp entry k') :
    Described data σ'.kern.mem (σ'.proc q).pagetable ↔ OffsetsFit data := by
  obtain ⟨hs, hhs, hl⟩ := hr.loaded_full h hq hd
  obtain ⟨hsp, ht⟩ := hr.space h hq
  have hproc : (σ'.proc q).pagetable = pt := by rw [hc.proc, Function.update_self]
  have hkeep := makeStack_keeps hsp (noUser_framePte _) noUser_trampPte
    ((h.owned_proc q).turns (ht.frame _)).left hm
  have hle : npages sz ≤ npages top := by
    obtain ⟨k₂, hpages, h0, -⟩ := makeStack_inv hm
    have htop := ((stackPages_spec hsp ((h.owned_proc q).turns (ht.frame _)).left).of_ok
      hpages).resolve_left fun hl => h0 hl.1
    rw [htop.1, npages_mul]
    omega
  rw [hproc]
  refine Vm.described_iff hd hhs hl.inside fun va hva => ?_
  rw [hl.top] at hva
  have hpage := div_lt_npages hva
  have hcopy : userByte σ'.kern.mem pt va = userByte k'.mem pt va :=
    (Kept.of_same hc.image).userByte (Nat.lt_of_lt_of_le hpage hle)
  rw [hcopy, hkeep.userByte hpage]
  exact hl.byte va ((Nat.div_lt_iff_lt_mul (by decide)).mp hpage)

/-- A process that has run `exec` has the program that the file describes, exactly if the offsets
fit. -/
theorem image_described_iff (h : Inv g safe rest pipes hand σ) (hq : (σ.proc q).state ≠ .unused)
    (hd : data.length < 2 ^ 32) :
    wp (exec g q (some (fileOf data)) argv) (fun r σ' => r ≠ -1 →
      (Described data σ'.kern.mem (σ'.proc q).pagetable ↔ OffsetsFit data))
      (fun _ => False) σ := by
  refine (exec_full h hq).mono ?_
  rintro r σ' (⟨rfl, -⟩ | ⟨-, ip, hip, pt, sz, k, hready, sp, top, k', hmake, hcom⟩) hr
  · exact absurd rfl hr
  · cases hip
    exact hcom.described_iff h hq hd hready hmake

theorem HasStack.described_iff (h : Inv g safe rest pipes hand σ)
    (hq : (σ.proc q).state ≠ .unused) (hd : data.length < 2 ^ 32)
    (hst : HasStack g (σ.proc q).trapframe σ.kern (some (fileOf data)) pt top k) :
    wp (exec g q (some (fileOf data)) []) (fun r σ' => r = 0 ∧
      (Described data σ'.kern.mem (σ'.proc q).pagetable ↔ OffsetsFit data)) E σ := by
  refine ((hst.exec_nil h hq).and (exec_full h hq)).mono ?_
  rintro r σ' ⟨hr, ⟨hneg, -⟩ | ⟨-, ip, hip, pt, sz, k, hready, sp, top, k', hmake, hcom⟩⟩
  · omega
  · cases hip
    exact ⟨hr, hcom.described_iff h hq hd hready hmake⟩

end

/-! ## A program of four bytes -/

/-- A program with one segment, of four bytes at the offset `off` of the file. -/
def segmentElf (off : Nat) : List UInt8 :=
  Bytes.toLe 4 ELF_MAGIC ++ List.replicate 28 0 ++ Bytes.toLe 8 elfhdrSize ++
    List.replicate 16 0 ++ Bytes.toLe 2 1 ++ List.replicate 6 0 ++
  (Bytes.toLe 4 ELF_PROG_LOAD ++ Bytes.toLe 4 5 ++ Bytes.toLe 8 off ++ List.replicate 16 0 ++
    Bytes.toLe 8 4 ++ Bytes.toLe 8 16 ++ List.replicate 8 0)

/-- The first process gets a stack for the program. -/
theorem boot_segment {off : Nat} (hoff : off = 0 ∨ off = 2 ^ 32) : ∃ taken s₀ pipes,
    bootZeroed smallLayout = .ok (taken, s₀) ∧
      Inv smallLayout (fun _ _ => False) taken pipes [] s₀ ∧ (s₀.proc 0).state ≠ .unused ∧
      ∃ pt top k, HasStack smallLayout (s₀.proc 0).trapframe s₀.kern
        (some (fileOf (segmentElf off))) pt top k := by
  rcases hoff with rfl | rfl <;>
    exact HasStack.at_boot _ (by decide +kernel) (by decide +kernel)
      (exists_boot_of_check (by decide +kernel))

theorem offsetsFit_segment : OffsetsFit (segmentElf 0) := by
  have hall : (headers (segmentElf 0)).all fun hs => hs.all fun ph =>
      decide (Proghdr.off ph < 2 ^ 32) := by decide +kernel
  refine ⟨by decide +kernel, fun hs hhs va ph hph => ?_⟩
  rw [hhs] at hall
  exact of_decide_eq_true (List.all_eq_true.mp hall ph (lastCovering_mem hph).1)

theorem not_offsetsFit_segment : ¬ OffsetsFit (segmentElf (2 ^ 32)) := by
  rintro ⟨-, hoffs⟩
  have hany : (headers (segmentElf (2 ^ 32))).any fun hs => (lastCovering hs 0).any fun ph =>
      decide (Proghdr.off ph = 2 ^ 32) := by decide +kernel
  obtain ⟨hs, hhs, hany⟩ := (Option.any_eq_true _ _).mp hany
  obtain ⟨ph, hph, heq⟩ := (Option.any_eq_true _ _).mp hany
  have hlt := hoffs hs hhs 0 ph hph
  rw [of_decide_eq_true heq] at hlt
  exact absurd hlt (by decide)

/-- The bytes of the segment are at the start of the file. -/
theorem image_described_iff_four : ∃ taken s₀,
    bootZeroed smallLayout = .ok (taken, s₀) ∧
      wp (exec smallLayout 0 (some (fileOf (segmentElf 0))) []) (fun r _ => r = 0)
        (fun _ => False) s₀ ∧
      wp (exec smallLayout 0 (some (fileOf (segmentElf 0))) []) (fun r s' => r ≠ -1 →
        Described (segmentElf 0) s'.kern.mem (s'.proc 0).pagetable) (fun _ => False) s₀ := by
  obtain ⟨taken, s₀, pipes, hb, hg, halive, pt, top, k, hst⟩ := boot_segment (.inl rfl)
  have hfit := offsetsFit_segment
  have hlen : (segmentElf 0).length < 2 ^ 32 := by decide +kernel
  generalize segmentElf 0 = data at hst hfit hlen ⊢
  refine ⟨taken, s₀, hb, hst.exec_nil hg halive, ?_⟩
  exact (image_described_iff hg halive hlen).mono fun r s' hdesc hr => (hdesc hr).mpr hfit

/-- The file says that the bytes of the segment are at `2 ^ 32`, which is not in the file, but
`exec` loads the bytes at its start. -/
theorem segment_far : ∃ taken s₀,
    bootZeroed smallLayout = .ok (taken, s₀) ∧
      wp (exec smallLayout 0 (some (fileOf (segmentElf (2 ^ 32)))) []) (fun r s' => r = 0 ∧
        ¬ Described (segmentElf (2 ^ 32)) s'.kern.mem (s'.proc 0).pagetable)
        (fun _ => False) s₀ := by
  obtain ⟨taken, s₀, pipes, hb, hg, halive, pt, top, k, hst⟩ := boot_segment (.inr rfl)
  have hfar := not_offsetsFit_segment
  have hlen : (segmentElf (2 ^ 32)).length < 2 ^ 32 := by decide +kernel
  generalize segmentElf (2 ^ 32) = data at hst hfar hlen ⊢
  refine ⟨taken, s₀, hb, (hst.described_iff hg halive hlen).mono ?_⟩
  rintro r s' ⟨hr, hdesc⟩
  exact ⟨hr, mt hdesc.mp hfar⟩

end Xv6.Vm
