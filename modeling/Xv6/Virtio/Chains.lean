import Xv6.Lib.Gather
import Xv6.Virtio.Driver

/-!
# Chains of descriptors

What allocating, formatting and freeing the three descriptors of a request does to the
descriptors.
-/

namespace Xv6.Virtio

variable {β : Type} {d d' : Drv β} {i : Nat} {idx : List Nat}

/-! ## Allocation -/

/-- The descriptors `idx` are taken. -/
def Drv.without (d : Drv β) (idx : List Nat) : Drv β :=
  { d with free := fun i => if i ∈ idx then false else d.free i }

theorem Drv.without_nil (d : Drv β) : d.without [] = d := by simp [Drv.without]

/-- Different descriptors that are free. -/
structure Drv.Avail (d : Drv β) (idx : List Nat) : Prop where
  nodup : idx.Nodup
  lt : ∀ i ∈ idx, i < NUM
  free : ∀ i ∈ idx, d.free i = true

theorem Drv.Avail.nil (d : Drv β) : d.Avail [] :=
  ⟨List.nodup_nil, fun _ h => (List.not_mem_nil h).elim, fun _ h => (List.not_mem_nil h).elim⟩

theorem allocDesc_without (ha : d.Avail idx) (h : allocDesc (d.without idx) = some (i, d')) :
    d.Avail (idx ++ [i]) ∧ d' = d.without (idx ++ [i]) := by
  obtain ⟨j, hj, heq⟩ := Option.map_eq_some_iff.1 h
  cases heq
  have hfree := List.find?_some hj
  have hlt : i < NUM := List.mem_range.1 (List.mem_of_find?_eq_some hj)
  have hi : i ∉ idx ∧ d.free i = true := by
    by_cases hm : i ∈ idx
    · simp [Drv.without, hm] at hfree
    · exact ⟨hm, by simpa [Drv.without, hm] using hfree⟩
  refine ⟨⟨?_, ?_, ?_⟩, ?_⟩
  · rw [List.nodup_append]
    refine ⟨ha.nodup, List.nodup_singleton i, fun a ha' b hb => ?_⟩
    rw [List.mem_singleton] at hb
    rintro rfl
    exact hi.1 (hb ▸ ha')
  · intro j hj
    rcases List.mem_append.1 hj with hj | hj
    · exact ha.lt j hj
    · rwa [List.mem_singleton.1 hj]
  · intro j hj
    rcases List.mem_append.1 hj with hj | hj
    · exact ha.free j hj
    · rw [List.mem_singleton.1 hj]
      exact hi.2
  · simp only [Drv.without, Drv.mk.injEq, true_and, and_true]
    funext j
    by_cases hj : j = i
    · simp [hj]
    · simp [hj]

/-- A driver that differs at most in descriptors that are free. -/
structure Drv.Same (d d' : Drv β) : Prop where
  free : ∀ i < NUM, d'.free i = d.free i
  desc : ∀ i, d.free i = false → d'.desc i = d.desc i
  avail : d'.avail = d.avail
  used : d'.used = d.used
  usedIdx : d'.usedIdx = d.usedIdx
  info : d'.info = d.info

/-- A descriptor is free again. -/
def Drv.freed (d : Drv β) (i : Nat) : Drv β :=
  { d with
    desc := Function.update d.desc i ⟨.null, 0, 0, 0⟩
    free := Function.update d.free i true }

theorem freeDesc_eq (hlt : i < NUM) (hf : d.free i = false) : freeDesc d i = .ok (d.freed i) := by
  simp [freeDesc, Nat.not_le.2 hlt, hf, Drv.freed]

/-- Descriptors that were taken are given back. -/
theorem freeDesc_fold : ∀ (idx : List Nat) {d d₁ : Drv β}, d.Avail idx →
    Drv.Same (d.without idx) d₁ → ∃ d', idx.foldlM freeDesc d₁ = .ok d' ∧ d.Same d'
  | [], d, d₁, _, hs => by
      rw [Drv.without_nil] at hs
      exact ⟨d₁, rfl, hs⟩
  | i :: idx, d, d₁, ha, hs => by
      have hlt : i < NUM := ha.lt i List.mem_cons_self
      have hni : i ∉ idx := (List.nodup_cons.1 ha.nodup).1
      have hfi : d₁.free i = false := by
        rw [hs.free i hlt]
        simp [Drv.without]
      have hidx : d.Avail idx := ⟨(List.nodup_cons.1 ha.nodup).2,
        fun j hj => ha.lt j (List.mem_cons_of_mem _ hj),
        fun j hj => ha.free j (List.mem_cons_of_mem _ hj)⟩
      rw [List.foldlM_cons, freeDesc_eq hlt hfi]
      refine freeDesc_fold idx hidx ⟨fun j hj => ?_, fun j hj => ?_, hs.avail, hs.used, hs.usedIdx,
        hs.info⟩
      · by_cases hji : j = i
        · have hf := ha.free i List.mem_cons_self
          simp [Drv.freed, Drv.without, hji, hni, hf]
        · have hf := hs.free j hj
          simpa [Drv.freed, Drv.without, hji] using hf
      · have hji : j ≠ i := by
          rintro rfl
          have hf := ha.free j List.mem_cons_self
          simp [Drv.without, hni, hf] at hj
        have hd := hs.desc j (by simpa [Drv.without, hji] using hj)
        simpa [Drv.freed, hji, Drv.without] using hd

/-- What the loop of `alloc3_desc` comes to. -/
theorem allocLoop_spec : ∀ (k : Nat) (idx : List Nat), d.Avail idx →
    ∃ a d', allocLoop k idx (d.without idx) = .ok (a, d') ∧
      match a with
      | .got idx' => d.Avail idx' ∧ d' = d.without idx' ∧ idx'.length = idx.length + k
      | .failed _ => d.Same d'
  | 0, idx, ha => ⟨_, _, rfl, ha, rfl, rfl⟩
  | k + 1, idx, ha => by
      unfold allocLoop
      cases hd : allocDesc (d.without idx) with
      | some x =>
          obtain ⟨i, d₁⟩ := x
          obtain ⟨ha', rfl⟩ := allocDesc_without ha hd
          obtain ⟨a, d', he, h⟩ := allocLoop_spec k (idx ++ [i]) ha'
          refine ⟨a, d', he, ?_⟩
          cases a with
          | got idx' =>
              rw [List.length_append, List.length_singleton] at h
              exact ⟨h.1, h.2.1, by omega⟩
          | failed _ => exact h
      | none =>
          have hs : Drv.Same (d.without idx) (d.without idx) :=
            ⟨fun _ _ => rfl, fun _ _ => rfl, rfl, rfl, rfl, rfl⟩
          obtain ⟨d', he, h⟩ := freeDesc_fold idx ha hs
          refine ⟨.failed (!idx.isEmpty), d', ?_, h⟩
          simp only [he]

/-! ## Requests -/

/-- The descriptors of a request. -/
def Req.descs (r : Req β) : List Nat := [r.i0, r.i1, r.i2]

/-- The chain of a request as the driver formatted it. -/
structure Formatted (d : Drv β) (r : Req β) : Prop where
  d0 : (d.desc r.i0).addr = .op r.i0 ∧ (d.desc r.i0).next = r.i1 ∧
    (d.desc r.i0).flags &&& VRING_DESC_F_NEXT ≠ 0
  d1 : (d.desc r.i1).addr = .data r.b ∧ (d.desc r.i1).next = r.i2 ∧
    (d.desc r.i1).flags &&& VRING_DESC_F_NEXT ≠ 0
  d2 : (d.desc r.i2).addr = .status r.i0 ∧ (d.desc r.i2).flags &&& VRING_DESC_F_NEXT = 0

variable {r : Req β} {k : Nat}

/-- The descriptors of a chain, found by following `next`. -/
def Drv.chain (d : Drv β) (i : Nat) : List Nat := [i, (d.desc i).next, (d.desc (d.desc i).next).next]

theorem Formatted.chain_eq (h : Formatted d r) : d.chain r.i0 = r.descs := by
  rw [Drv.chain, h.d0.2.1, h.d1.2.1, Req.descs]

/-- Only the descriptors of the request matter. -/
theorem Formatted.congr (h : Formatted d r) (hd : ∀ i ∈ r.descs, d'.desc i = d.desc i) :
    Formatted d' r := by
  have h0 : d'.desc r.i0 = d.desc r.i0 := hd _ (by simp [Req.descs])
  have h1 : d'.desc r.i1 = d.desc r.i1 := hd _ (by simp [Req.descs])
  have h2 : d'.desc r.i2 = d.desc r.i2 := hd _ (by simp [Req.descs])
  exact ⟨by rw [h0]; exact h.d0, by rw [h1]; exact h.d1, by rw [h2]; exact h.d2⟩

theorem formatted_format (hn : r.descs.Nodup) (blockno : Nat) :
    Formatted (format d r blockno) r := by
  obtain ⟨⟨h01, h02⟩, h12⟩ : (r.i0 ≠ r.i1 ∧ r.i0 ≠ r.i2) ∧ r.i1 ≠ r.i2 := by
    simpa [Req.descs] using hn
  have e0 : (format d r blockno).desc r.i0 = ⟨.op r.i0, 16, VRING_DESC_F_NEXT, r.i1⟩ := by
    simp [format, h01, h02]
  have e1 : (format d r blockno).desc r.i1 = ⟨.data r.b, BSIZE,
      (if r.write then 0 else VRING_DESC_F_WRITE) ||| VRING_DESC_F_NEXT, r.i2⟩ := by
    simp [format, h12]
  have e2 : (format d r blockno).desc r.i2 = ⟨.status r.i0, 1, VRING_DESC_F_WRITE, 0⟩ := by
    simp [format]
  have f0 : VRING_DESC_F_NEXT &&& VRING_DESC_F_NEXT ≠ 0 := by decide
  have f1 : ∀ w : Bool, ((if w then 0 else VRING_DESC_F_WRITE) ||| VRING_DESC_F_NEXT) &&&
      VRING_DESC_F_NEXT ≠ 0 := by decide
  have f2 : VRING_DESC_F_WRITE &&& VRING_DESC_F_NEXT = 0 := by decide
  refine ⟨?_, ?_, ?_⟩
  · rw [e0]
    exact ⟨rfl, rfl, f0⟩
  · rw [e1]
    exact ⟨rfl, rfl, f1 r.write⟩
  · rw [e2]
    exact ⟨rfl, f2⟩

/-- Formatting changes the descriptors of the request only. -/
theorem format_desc_of_notMem (hi : i ∉ r.descs) (blockno : Nat) :
    (format d r blockno).desc i = d.desc i := by
  simp only [Req.descs, List.mem_cons, List.not_mem_nil, or_false, not_or] at hi
  simp [format, hi]

theorem freeChain_next (hlt : i < NUM) (hf : d.free i = false)
    (hx : (d.desc i).flags &&& VRING_DESC_F_NEXT ≠ 0) :
    freeChain (k + 1) d i = freeChain k (d.freed i) (d.desc i).next := by
  rw [freeChain, freeDesc_eq hlt hf]
  exact if_pos hx

theorem freeChain_last (hlt : i < NUM) (hf : d.free i = false)
    (hx : (d.desc i).flags &&& VRING_DESC_F_NEXT = 0) :
    freeChain (k + 1) d i = .ok (d.freed i) := by
  rw [freeChain, freeDesc_eq hlt hf]
  exact if_neg (not_not.2 hx)

/-- The chain of a request is freed. -/
theorem freeChain_eq (hf : Formatted d r) (hn : r.descs.Nodup) (hlt : ∀ i ∈ r.descs, i < NUM)
    (hfree : ∀ i ∈ r.descs, d.free i = false) :
    freeChain (NUM + 1) d r.i0 = .ok (((d.freed r.i0).freed r.i1).freed r.i2) := by
  obtain ⟨⟨h01, h02⟩, h12⟩ : (r.i0 ≠ r.i1 ∧ r.i0 ≠ r.i2) ∧ r.i1 ≠ r.i2 := by
    simpa [Req.descs] using hn
  have hl0 := hlt r.i0 (by simp [Req.descs])
  have hl1 := hlt r.i1 (by simp [Req.descs])
  have hl2 := hlt r.i2 (by simp [Req.descs])
  have hf0 := hfree r.i0 (by simp [Req.descs])
  have hf1 : (d.freed r.i0).free r.i1 = false := by
    simpa [Drv.freed, Ne.symm h01] using hfree r.i1 (by simp [Req.descs])
  have hf2 : ((d.freed r.i0).freed r.i1).free r.i2 = false := by
    simpa [Drv.freed, Ne.symm h02, Ne.symm h12] using hfree r.i2 (by simp [Req.descs])
  have e1 : (d.freed r.i0).desc r.i1 = d.desc r.i1 := by simp [Drv.freed, Ne.symm h01]
  have e2 : ((d.freed r.i0).freed r.i1).desc r.i2 = d.desc r.i2 := by
    simp [Drv.freed, Ne.symm h02, Ne.symm h12]
  obtain ⟨-, hn0, hx0⟩ := hf.d0
  obtain ⟨-, hn1, hx1⟩ := hf.d1
  rw [freeChain_next hl0 hf0 hx0, hn0]
  show freeChain (NUM - 1 + 1) _ _ = _
  rw [freeChain_next hl1 hf1 (by rwa [e1]), e1, hn1]
  show freeChain (NUM - 2 + 1) _ _ = _
  rw [freeChain_last hl2 hf2 (by rw [e2]; exact hf.d2.2)]

/-- What freeing a chain changes. -/
theorem freed3_free (d : Drv β) (r : Req β) (i : Nat) :
    (((d.freed r.i0).freed r.i1).freed r.i2).free i = if i ∈ r.descs then true else d.free i := by
  simp only [Req.descs, List.mem_cons, List.not_mem_nil, or_false, Drv.freed]
  by_cases h2 : i = r.i2
  · simp [h2]
  · by_cases h1 : i = r.i1
    · simp [h1, Function.update_apply]
    · by_cases h0 : i = r.i0
      · simp [h0, Function.update_apply]
      · simp [h0, h1, h2]

theorem freed3_desc (hi : i ∉ r.descs) :
    (((d.freed r.i0).freed r.i1).freed r.i2).desc i = d.desc i := by
  simp only [Req.descs, List.mem_cons, List.not_mem_nil, or_false, not_or] at hi
  simp [Drv.freed, hi]

end Xv6.Virtio
