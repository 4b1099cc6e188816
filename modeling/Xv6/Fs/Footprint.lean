import Xv6.Fs.Contents

/-!
# How many blocks are logged

A budget for the log: `Within base k l` says that the logged blocks `l` are among some blocks that
are known beforehand, with at most `k` others.  `log_write` of a block that is already there costs
nothing, and of another one at most one unit.  The bound also holds when the kernel stops, so that a
stop for want of log space is excluded if the budget is below the size of the log.

`β` is what the bitmap block of a new block costs: nothing if all bitmap blocks are known
beforehand, and one otherwise.  `ind` says that the indirect block may be needed.  A write to blocks
that have addresses logs these blocks only.
-/

namespace Xv6.Fs

open Bytes Hoare Census

variable {sb : Superblock} {s s' : State} {ip : Ptr} {base l : List Nat}
  {b c e i j k n m off tot fuel bn K β d : Nat} {ind : Bool} {src : Src}

/-! ## The budget -/

/-- At most `k` blocks that are not in `base`. -/
def Within (base : List Nat) (k : Nat) (l : List Nat) : Prop :=
  l.Nodup ∧ ∃ L : List Nat, L.length ≤ k ∧ ∀ b ∈ l, b ∈ base ∨ b ∈ L

theorem Within.length_le (h : Within base k l) : l.length ≤ base.length + k := by
  obtain ⟨hn, L, hL, hmem⟩ := h
  have hsub : l ⊆ base ++ L := fun b hb => List.mem_append.mpr (hmem b hb)
  have := (hn.subperm hsub).length_le
  rw [List.length_append] at this
  omega

theorem Within.mono (h : Within base k l) (hk : k ≤ n) : Within base n l := by
  obtain ⟨hn, L, hL, hmem⟩ := h
  exact ⟨hn, L, hL.trans hk, hmem⟩

theorem Within.snoc (h : Within base k l) (hb : b ∉ l) (hc : b ∈ base ∨ 1 ≤ c) :
    Within base (k + c) (l ++ [b]) := by
  obtain ⟨hn, L, hL, hmem⟩ := h
  have hnodup : (l ++ [b]).Nodup := List.nodup_append.mpr ⟨hn, List.nodup_singleton b, fun x hx y hy => by
    rw [List.mem_singleton.mp hy]
    exact fun he => hb (he ▸ hx)⟩
  rcases hc with hbase | hc
  · refine ⟨hnodup, L, by omega, fun x hx => ?_⟩
    rcases List.mem_append.mp hx with hx | hx
    · exact hmem x hx
    · rw [List.mem_singleton.mp hx]
      exact .inl hbase
  · refine ⟨hnodup, b :: L, by rw [List.length_cons]; omega, fun x hx => ?_⟩
    rcases List.mem_append.mp hx with hx | hx
    · exact (hmem x hx).imp_right (List.mem_cons_of_mem _)
    · rw [List.mem_singleton.mp hx]
      exact .inr (List.mem_cons_self ..)

/-- The number of blocks for which `log_write` has room. -/
def logLimit (sb : Superblock) : Nat := min LOGSIZE (sb.nlog - 1)

/-- The kernel stops within the budget, and for want of log space only if the log is full. -/
def Stops (sb : Superblock) (base : List Nat) (K : Nat) (st : Stop) : Prop :=
  Within base K st.lh ∧ (st.why = .tooBig → logLimit sb ≤ st.lh.length)

/-- The log only grows, and the inode table stays. -/
structure Logged (s s' : State) : Prop where
  lh : ∀ b ∈ s.lh, b ∈ s'.lh
  itable : s'.itable = s.itable

theorem Logged.refl (s : State) : Logged s s := ⟨fun _ hb => hb, rfl⟩

theorem Logged.trans {s'' : State} (h : Logged s s') (h' : Logged s' s'') : Logged s s'' :=
  ⟨fun b hb => h'.lh b (h.lh b hb), h'.itable.trans h.itable⟩

/-! ## Blocks -/

theorem log_write_logs (h : Within base k s.lh) (hc : b ∈ base ∨ b ∈ s.lh ∨ 1 ≤ c) (hK : k ≤ K) :
    wp (log_write sb b) (fun _ s' => Within base (k + c) s'.lh ∧ b ∈ s'.lh ∧ Logged s s' ∧
      s'.disk = s.disk) (Stops sb base K) s := by
  have hstop : Within base K s.lh := h.mono hK
  rw [log_write, wp_bind, wp_get]
  split
  · rename_i hfull
    refine ⟨hstop, fun _ => ?_⟩
    show logLimit sb ≤ s.lh.length
    rw [logLimit]
    omega
  · split
    · refine ⟨hstop, fun ht => by cases ht⟩
    · split
      · rename_i hb
        exact ⟨h.mono (Nat.le_add_right ..), hb, .refl s, rfl⟩
      · rename_i hb
        refine ⟨h.snoc hb (hc.imp_right fun h => h.resolve_left hb),
          List.mem_append_right _ (List.mem_singleton_self b),
          ⟨fun x hx => List.mem_append_left _ hx, rfl⟩, rfl⟩

theorem store_logs (h : Within base k s.lh) (hc : b ∈ base ∨ b ∈ s.lh ∨ 1 ≤ c) (hK : k ≤ K)
    (v : Block) :
    wp (store sb b v) (fun _ s' => Within base (k + c) s'.lh ∧ b ∈ s'.lh ∧ Logged s s' ∧
      s'.disk = Function.update s.disk b v) (Stops sb base K) s := by
  rw [store, wp_bind, wp_setData]
  have hw : wp (log_write sb b) _ (Stops sb base K) (s.setBlock b v) := log_write_logs h hc hK
  exact hw.mono fun _ s' hs => ⟨hs.1, hs.2.1, ⟨hs.2.2.1.lh, hs.2.2.1.itable⟩, hs.2.2.2⟩

/-- What the bitmap blocks cost. -/
def BitmapCost (sb : Superblock) (base : List Nat) (β : Nat) : Prop :=
  (∀ b < sb.size, sb.bblock b ∈ base) ∨ 1 ≤ β

/-- The bitmap blocks. -/
def bitmapBlocks (sb : Superblock) : List Nat :=
  (List.range ((sb.size + BPB - 1) / BPB)).map (· + sb.bmapstart)

theorem bitmapCost_zero (h : ∀ b ∈ bitmapBlocks sb, b ∈ base) : BitmapCost sb base 0 := by
  refine .inl fun b hb => h _ (List.mem_map.mpr ⟨b / BPB, List.mem_range.mpr ?_, rfl⟩)
  rw [BPB_eq]
  omega

theorem BitmapCost.store (h : BitmapCost sb base β) (hb : b < sb.size) :
    sb.bblock b ∈ base ∨ sb.bblock b ∈ l ∨ 1 ≤ β :=
  h.imp (fun hall => hall b hb) .inr

/-- A new block and its bitmap block. -/
theorem balloc_logs (h : Within base k s.lh) (hβ : BitmapCost sb base β) (hK : k + (β + 1) ≤ K) :
    wp (balloc sb) (fun r s' => Logged s s' ∧ ((r = 0 ∧ s' = s) ∨
      (r < sb.size ∧ Within base (k + (β + 1)) s'.lh ∧ r ∈ s'.lh))) (Stops sb base K) s := by
  rw [balloc, wp_bind, wp_get]
  cases hf : (List.range sb.size).find? fun b => !bitAt sb s.disk b with
  | none => exact ⟨.refl s, .inl ⟨rfl, rfl⟩⟩
  | some b =>
      have hlt : b < sb.size := List.mem_range.mp (List.mem_of_find?_eq_some hf)
      rw [wp_bind]
      refine (store_logs h (hβ.store hlt) (by omega) _).mono fun _ s₁ h₁ => ?_
      rw [wp_bind]
      refine (store_logs (c := 1) h₁.1 (.inr (.inr le_rfl)) (by omega) _).mono fun _ s₂ h₂ => ?_
      exact ⟨h₁.2.2.1.trans h₂.2.2.1, .inr ⟨hlt, h₂.1, h₂.2.1⟩⟩

theorem iupdate_logs (h : Within base k s.lh)
    (hc : sb.iblock (s.itable ip).inum ∈ base ∨ sb.iblock (s.itable ip).inum ∈ s.lh ∨ 1 ≤ c)
    (hK : k ≤ K) :
    wp (iupdate sb ip) (fun _ s' => Within base (k + c) s'.lh ∧
      sb.iblock (s.itable ip).inum ∈ s'.lh ∧ Logged s s') (Stops sb base K) s := by
  rw [iupdate, wp_bind, wp_inode, wp_bind, wp_bread]
  exact (store_logs h hc hK _).mono fun _ s' hs => ⟨hs.1, hs.2.1, hs.2.2.1⟩

/-! ## `bmap` and `writei` -/

/-- What the indirect block may still cost. -/
def indirectCost (ind : Bool) (β : Nat) (s : State) (ip : Ptr) : Nat :=
  if !ind then 0
  else if (s.itable ip).node.addr NDIRECT = 0 then β + 1
  else if (s.itable ip).node.addr NDIRECT ∈ s.lh then 0 else 1

theorem indirectCost_le : indirectCost ind β s ip ≤ if ind then β + 1 else 0 := by
  cases ind with
  | false => exact le_rfl
  | true =>
      simp only [indirectCost, Bool.not_true, Bool.false_eq_true, if_false, if_true]
      split
      · exact le_rfl
      · split <;> omega

/-- The log within a budget that pays for the indirect block. -/
def Budget (base : List Nat) (ind : Bool) (β K : Nat) (s : State) (ip : Ptr) : Prop :=
  ∃ k, k + indirectCost ind β s ip ≤ K ∧ Within base k s.lh

theorem Budget.within (h : Budget base ind β k s ip) : Within base k s.lh := by
  obtain ⟨j, hj, hw⟩ := h
  exact hw.mono (by omega)

theorem Budget.mono (h : Budget base ind β k s ip) (hk : k ≤ n) : Budget base ind β n s ip := by
  obtain ⟨j, hj, hw⟩ := h
  exact ⟨j, hj.trans hk, hw⟩

/-- More blocks in the log make the indirect block no dearer. -/
theorem Logged.indirectCost (h : Logged s s') :
    indirectCost ind β s' ip ≤ indirectCost ind β s ip := by
  unfold Fs.indirectCost
  rw [h.itable]
  split
  · exact le_rfl
  · split
    · exact le_rfl
    · split
      · exact Nat.zero_le _
      · rename_i hno
        rw [if_neg fun hm => hno (h.lh _ hm)]

/-- The inode has another address. -/
theorem indirectCost_setAddr (hj : j < NDIRECT) (r : Nat) :
    indirectCost ind β
        (s.setInode ip { s.itable ip with node := (s.itable ip).node.setAddr j r }) ip =
      indirectCost ind β s ip := by
  have haddr : ((s.itable ip).node.setAddr j r).addr NDIRECT = (s.itable ip).node.addr NDIRECT := by
    unfold Dinode.addr Dinode.setAddr
    simp only [show (NDIRECT : Nat) ≠ j from by omega, if_false]
  unfold indirectCost
  rw [itable_setInode, Function.update_self, haddr]
  rfl

theorem lh_setInode {e : Inode} : (s.setInode ip e).lh = s.lh := rfl

/-- After `bmap`: either the block is an old one, or it is logged. -/
structure BmapLogs (base : List Nat) (ind : Bool) (β k : Nat) (s s' : State) (ip : Ptr) (r : Nat) :
    Prop where
  within : Within base (k + (β + 1)) s'.lh
  cost : r ≠ 0 → Budget base ind β k s' ip ∨ (Budget base ind β (k + (β + 1)) s' ip ∧ r ∈ s'.lh)
  inum : (s'.itable ip).inum = (s.itable ip).inum
  lh : ∀ b ∈ s.lh, b ∈ s'.lh

theorem BmapLogs.old (h : Budget base ind β k s ip) (r : Nat) : BmapLogs base ind β k s s ip r :=
  ⟨h.within.mono (Nat.le_add_right ..), fun _ => .inl h, rfl, fun _ hb => hb⟩

theorem addrAlloc_direct_logs (h : Budget base ind β k s ip) (hβ : BitmapCost sb base β)
    (hj : j < NDIRECT) (hK : k + (β + 1) ≤ K) :
    wp (addrAlloc sb ip j) (fun r s' => BmapLogs base ind β k s s' ip r) (Stops sb base K) s := by
  rw [addrAlloc, wp_bind, wp_inode]
  split
  · obtain ⟨k₀, hk₀, hw⟩ := h
    rw [wp_bind]
    refine (balloc_logs hw hβ (by omega)).mono fun r s' hr => ?_
    have hcost : indirectCost ind β s' ip ≤ indirectCost ind β s ip := hr.1.indirectCost
    rcases hr.2 with ⟨rfl, rfl⟩ | ⟨-, hw', hmem⟩
    · rw [if_pos rfl]
      exact .old ⟨k₀, hk₀, hw⟩ 0
    · split
      · exact ⟨hw'.mono (by omega), fun h => absurd rfl h, by rw [hr.1.itable], hr.1.lh⟩
      · rw [wp_bind, wp_setNode, wp_pure]
        refine ⟨hw'.mono (by omega), fun _ => .inr ⟨⟨k₀ + (β + 1), ?_, hw'⟩, hmem⟩, ?_, hr.1.lh⟩
        · rw [indirectCost_setAddr hj]
          omega
        · rw [itable_setInode, Function.update_self, hr.1.itable]
  · exact .old h _

/-- The indirect block, which is paid for. -/
theorem addrAlloc_indirect_logs (h : Budget base true β k s ip) (hβ : BitmapCost sb base β)
    (hK : k ≤ K) :
    wp (addrAlloc sb ip NDIRECT) (fun r s' => Within base k s'.lh ∧
      (r ≠ 0 → Budget base true β k s' ip ∧ (s'.itable ip).node.addr NDIRECT = r) ∧
      (s'.itable ip).inum = (s.itable ip).inum ∧ ∀ b ∈ s.lh, b ∈ s'.lh) (Stops sb base K) s := by
  rw [addrAlloc, wp_bind, wp_inode]
  split
  · rename_i h0
    obtain ⟨k₀, hk₀, hw⟩ := h
    have hcost : indirectCost true β s ip = β + 1 := by
      rw [indirectCost, if_neg (by decide), if_pos h0]
    rw [wp_bind]
    refine (balloc_logs hw hβ (by omega)).mono fun r s' hr => ?_
    rcases hr.2 with ⟨rfl, rfl⟩ | ⟨hlt, hw', hmem⟩
    · rw [if_pos rfl]
      exact ⟨hw.mono (by omega), fun h => absurd rfl h, rfl, fun _ hb => hb⟩
    · split
      · exact ⟨hw'.mono (by omega), fun h => absurd rfl h, by rw [hr.1.itable], hr.1.lh⟩
      · rename_i hr0
        have h32 : r < 2 ^ 32 := by
          have := sb.size_lt
          omega
        have haddr : ((s'.itable ip).node.setAddr NDIRECT r).addr NDIRECT = r :=
          (Dinode.addr_setAddr le_rfl h32).trans (if_pos rfl)
        rw [wp_bind, wp_setNode, wp_pure]
        refine ⟨hw'.mono (by omega), fun _ => ⟨⟨k₀ + (β + 1), ?_, hw'⟩, ?_⟩, ?_, hr.1.lh⟩
        · unfold indirectCost
          rw [itable_setInode, Function.update_self, haddr, if_neg (by decide), if_neg hr0,
            lh_setInode, if_pos hmem]
          omega
        · rw [itable_setInode, Function.update_self, haddr]
        · rw [itable_setInode, Function.update_self, hr.1.itable]
  · exact ⟨h.within, fun _ => ⟨h, rfl⟩, rfl, fun _ hb => hb⟩

/-- An entry of the indirect block.  If it is new the indirect block is logged, which is paid for. -/
theorem entryAlloc_logs (h : Budget base true β k s ip) (hβ : BitmapCost sb base β)
    (hn : n = (s.itable ip).node.addr NDIRECT) (h0 : n ≠ 0) (hK : k + (β + 1) ≤ K) :
    wp (entryAlloc sb n j) (fun r s' => BmapLogs base true β k s s' ip r) (Stops sb base K) s := by
  rw [entryAlloc, wp_bind, wp_bread]
  split
  · obtain ⟨k₀, hk₀, hw⟩ := h
    have hcost : indirectCost true β s ip = if n ∈ s.lh then 0 else 1 := by
      rw [indirectCost, ← hn, if_neg (by decide), if_neg h0]
    rw [wp_bind]
    refine (balloc_logs hw hβ (by omega)).mono fun r s' hr => ?_
    have hcost' : indirectCost true β s' ip ≤ indirectCost true β s ip := hr.1.indirectCost
    rcases hr.2 with ⟨rfl, rfl⟩ | ⟨-, hw', hmem⟩
    · rw [if_pos rfl]
      exact .old ⟨k₀, hk₀, hw⟩ 0
    · split
      · exact ⟨hw'.mono (by omega), fun h => absurd rfl h, by rw [hr.1.itable], hr.1.lh⟩
      · rw [wp_bind, wp_bread, wp_bind]
        have hpay : n ∈ base ∨ n ∈ s'.lh ∨ 1 ≤ indirectCost true β s ip := by
          rw [hcost]
          by_cases hm : n ∈ s.lh
          · exact .inr (.inl (hr.1.lh n hm))
          · exact .inr (.inr (by rw [if_neg hm]))
        refine (store_logs hw' hpay (by omega) _).mono fun _ s'' hs => ?_
        rw [wp_pure]
        have hit : s''.itable = s.itable := hs.2.2.1.itable.trans hr.1.itable
        have hfree : indirectCost true β s'' ip = 0 := by
          rw [indirectCost, hit, ← hn, if_neg (by decide), if_neg h0, if_pos hs.2.1]
        exact ⟨hs.1.mono (by omega), fun _ => .inr ⟨⟨_, by omega, hs.1⟩, hs.2.2.1.lh r hmem⟩,
          by rw [hit], fun b hb => hs.2.2.1.lh b (hr.1.lh b hb)⟩
  · exact .old h _

theorem bmap_logs (h : Budget base ind β k s ip) (hβ : BitmapCost sb base β)
    (hind : ind = false → bn < NDIRECT) (hK : k + (β + 1) ≤ K) :
    wp (bmap sb ip bn) (fun r s' => BmapLogs base ind β k s s' ip r) (Stops sb base K) s := by
  rw [bmap]
  split
  · rename_i hbn
    exact addrAlloc_direct_logs h hβ hbn hK
  · rename_i hbn
    obtain rfl : ind = true := Bool.not_eq_false _ ▸ mt hind hbn
    split
    · rw [wp_bind]
      refine (addrAlloc_indirect_logs h hβ (by omega)).mono fun r s₁ h₁ => ?_
      split
      · rename_i hr
        exact ⟨h₁.1.mono (Nat.le_add_right ..), fun h => absurd rfl h, h₁.2.2.1, h₁.2.2.2⟩
      · rename_i hr
        obtain ⟨hb, haddr⟩ := h₁.2.1 hr
        refine (entryAlloc_logs hb hβ haddr.symm hr hK).mono fun r' s₂ h₂ => ?_
        exact ⟨h₂.within, h₂.cost, h₂.inum.trans h₁.2.2.1, fun b hb => h₂.lh b (h₁.2.2.2 b hb)⟩
    · exact ⟨h.within.mono (by omega), fun ht => by cases ht⟩

/-- A block of a file is written to. -/
theorem log_write_budget (h : Budget base ind β k s ip) (hc : b ∈ base ∨ b ∈ s.lh ∨ 1 ≤ c)
    (hK : k ≤ K) :
    wp (log_write sb b) (fun _ s' => Budget base ind β (k + c) s' ip ∧ Logged s s')
      (Stops sb base K) s := by
  obtain ⟨k₀, hk₀, hw⟩ := h
  refine (log_write_logs hw hc (by omega)).mono fun _ s' hs => ?_
  have hle : indirectCost ind β s' ip ≤ indirectCost ind β s ip := hs.2.2.1.indirectCost
  exact ⟨⟨_, by omega, hs.1⟩, hs.2.2.1⟩

/-- The number of blocks that the bytes `[off, off + n)` are in. -/
def span (off n : Nat) : Nat := if n = 0 then 0 else (off % BSIZE + n - 1) / BSIZE + 1

/-- The first block, and those of the rest. -/
theorem span_step (hn : 0 < n) (hm : min n (BSIZE - off % BSIZE) = m) :
    span off n = span (off + m) (n - m) + 1 := by
  have hB : BSIZE = 1024 := rfl
  unfold span
  rw [hB] at hm ⊢
  rw [if_neg (by omega)]
  split <;> omega

/-- The cost of the first block is `c`, which is less if it has an address. -/
theorem writeLoop_logs (h : Budget base ind β k s ip) (hβ : BitmapCost sb base β)
    (hind : ind = false → off + (n - tot) ≤ NDIRECT * BSIZE) (hlt : tot < n)
    (hc : c = β + 1 ∨ (c = 1 ∧ off / BSIZE < MAXFILE ∧
      blockAddr s.disk (s.itable ip).node (off / BSIZE) ≠ 0))
    (hK : k + c + (span off (n - tot) - 1) * (β + 1) ≤ K) :
    wp (writeLoop sb ip src fuel off tot n) (fun _ s' =>
      Within base (k + c + (span off (n - tot) - 1) * (β + 1)) s'.lh ∧
      (s'.itable ip).inum = (s.itable ip).inum ∧ ∀ b ∈ s.lh, b ∈ s'.lh) (Stops sb base K) s := by
  induction fuel generalizing s off tot k c with
  | zero => exact ⟨h.within.mono (by omega), rfl, fun _ hb => hb⟩
  | succ fuel ih =>
      rw [writeLoop, if_pos hlt]
      generalize hm : min (n - tot) (BSIZE - off % BSIZE) = m
      rw [span_step (Nat.sub_pos_of_lt hlt) hm, Nat.add_sub_cancel] at hK ⊢
      generalize hrest : span (off + m) (n - tot - m) * (β + 1) = rest at hK ⊢
      have hbn : ind = false → off / BSIZE < NDIRECT := fun hi => by
        have := hind hi
        exact Nat.div_lt_of_lt_mul (by rw [Nat.mul_comm]; omega)
      have hbmap : wp (bmap sb ip (off / BSIZE)) (fun r s' =>
          Within base (k + c) s'.lh ∧ (s'.itable ip).inum = (s.itable ip).inum ∧
          (∀ b ∈ s.lh, b ∈ s'.lh) ∧
          (r ≠ 0 → Budget base ind β (k + (c - 1)) s' ip ∨
            (Budget base ind β (k + c) s' ip ∧ r ∈ s'.lh)))
          (Stops sb base K) s := by
        rcases hc with rfl | ⟨rfl, hbn, haddr⟩
        · refine (bmap_logs h hβ hbn (by omega)).mono fun r s' hr =>
            ⟨hr.within, hr.inum, hr.lh, fun h0 => ?_⟩
          exact (hr.cost h0).imp_left fun hb => hb.mono (by omega)
        · rw [wp_bmap_of_addr hbn haddr]
          exact ⟨h.within.mono (by omega), rfl, fun _ hb => hb, fun _ => .inl h⟩
      have hc1 : 1 ≤ c := by omega
      rw [wp_bind]
      refine hbmap.mono fun addr s₁ h₁ => ?_
      obtain ⟨hw₁, hinum₁, hlh₁, hcost₁⟩ := h₁
      split
      · exact ⟨hw₁.mono (by omega), hinum₁, hlh₁⟩
      · rename_i h0
        rw [wp_bind, wp_bread, wp_bind, wp_setData]
        generalize hs₂ : s₁.setBlock _ _ = s₂
        have hit₂ : s₂.itable = s₁.itable := by rw [← hs₂, itable_setBlock]
        have hlh₂ : s₂.lh = s₁.lh := by rw [← hs₂]; rfl
        have hbudget : ∀ j, Budget base ind β j s₁ ip → Budget base ind β j s₂ ip := by
          rw [← hs₂]
          exact fun j hj => hj
        split
        · exact ⟨by rw [hlh₂]; exact hw₁.mono (by omega), by rw [hit₂]; exact hinum₁,
            by rw [hlh₂]; exact hlh₁⟩
        · rw [wp_bind]
          have hlog : wp (log_write sb addr) (fun _ s' => Budget base ind β (k + c) s' ip ∧
              Logged s₂ s') (Stops sb base K) s₂ := by
            rcases hcost₁ h0 with hb | ⟨hb, hmem⟩
            · refine (log_write_budget (c := 1) (hbudget _ hb) (.inr (.inr le_rfl))
                (by omega)).mono fun _ s' hs => ⟨hs.1.mono (by omega), hs.2⟩
            · rw [← hlh₂] at hmem
              exact log_write_budget (c := 0) (hbudget _ hb) (.inr (.inl hmem))
                (Nat.le_of_add_right_le hK)
          refine hlog.mono fun _ s₃ h₃ => ?_
          have hinum₃ : (s₃.itable ip).inum = (s.itable ip).inum := by
            rw [h₃.2.itable, hit₂, hinum₁]
          have hlh₃ : ∀ b ∈ s.lh, b ∈ s₃.lh := fun b hb => h₃.2.lh b (hlh₂ ▸ hlh₁ b hb)
          by_cases hmore : tot + m < n
          · have hpos : 0 < span (off + m) (n - (tot + m)) := by
              rw [span, if_neg (by omega)]
              exact Nat.succ_pos _
            have hsum : (β + 1) + (span (off + m) (n - (tot + m)) - 1) * (β + 1) = rest := by
              rw [← hrest, Nat.sub_sub, Nat.add_comm, ← Nat.succ_mul, Nat.succ_eq_add_one,
                Nat.sub_add_cancel hpos]
            exact (ih h₃.1 (fun hi => by have := hind hi; omega) hmore (.inl rfl) (by omega)).mono fun r s₄ h₄ =>
              ⟨h₄.1.mono (by omega), h₄.2.1.trans hinum₃, fun b hb => h₄.2.2 b (hlh₃ b hb)⟩
          · have hend : writeLoop sb ip src fuel (off + m) (tot + m) n = pure (tot + m) := by
              cases fuel with
              | zero => rfl
              | succ fuel => rw [writeLoop, if_neg hmore]
            rw [hend]
            exact ⟨h₃.1.within.mono (by omega), hinum₃, hlh₃⟩

/-- The blocks up to the byte `e` of a file have addresses, and none is the indirect block. -/
def Addressed (m : Disk) (d : Dinode) (e : Nat) : Prop :=
  ∀ bn, bn * BSIZE < e → bn < MAXFILE ∧ blockAddr m d bn ≠ 0 ∧ blockAddr m d bn ≠ d.addr NDIRECT

theorem Addressed.update {d : Dinode} {x : Nat} (h : Addressed s.disk d e) (hx : x ≠ d.addr NDIRECT)
    (v : Block) : Addressed (Function.update s.disk x v) d e := by
  intro bn hbn
  rw [blockAddr, slotAddr_update fun _ => hx.symm]
  exact h bn hbn

/-- Nothing is allocated for blocks that have addresses. -/
theorem writeLoop_overwrites (h : Within base k s.lh)
    (ha : Addressed s.disk (s.itable ip).node e) (he : off + (n - tot) ≤ e)
    (hK : k + span off (n - tot) ≤ K) :
    wp (writeLoop sb ip src fuel off tot n) (fun _ s' =>
      Within base (k + span off (n - tot)) s'.lh ∧ Logged s s') (Stops sb base K) s := by
  induction fuel generalizing s off tot k with
  | zero => exact ⟨h.mono (Nat.le_add_right ..), .refl s⟩
  | succ fuel ih =>
      rw [writeLoop]
      split
      · rename_i hlt
        generalize hm : min (n - tot) (BSIZE - off % BSIZE) = m
        rw [span_step (Nat.sub_pos_of_lt hlt) hm, Nat.sub_sub] at hK ⊢
        obtain ⟨hM, h0, hne⟩ := ha (off / BSIZE) (by
          have := Nat.div_mul_le_self off BSIZE
          omega)
        rw [wp_bind, wp_bmap_of_addr hM h0, if_neg h0, wp_bind, wp_bread, wp_bind, wp_setData]
        split
        · exact ⟨h.mono (Nat.le_add_right ..), fun _ hb => hb, rfl⟩
        · rw [wp_bind]
          generalize hv : s.setBlock _ _ = s₀
          have hlh : s₀.lh = s.lh := by rw [← hv]; rfl
          have hit : s₀.itable = s.itable := by rw [← hv, itable_setBlock]
          refine (log_write_logs (c := 1) (K := K) (hlh ▸ h) (.inr (.inr le_rfl))
            (by omega)).mono fun _ s₁ h₁ => ?_
          obtain ⟨hw, -, hlog, hdisk⟩ := h₁
          have ha₁ : Addressed s₁.disk (s₁.itable ip).node e := by
            rw [hdisk, hlog.itable, hit, ← hv]
            exact ha.update hne _
          refine (ih hw ha₁ (by omega) (by omega)).mono fun _ s₂ h₂ => ⟨h₂.1.mono (by omega), ?_⟩
          exact Logged.trans ⟨hlh ▸ hlog.lh, hit ▸ hlog.itable⟩ h₂.2
      · exact ⟨h.mono (Nat.le_add_right ..), .refl s⟩

/-- After its loop `writei` logs the block of the inode. -/
theorem writei_logs_of_loop (h : Within base k s.lh) (hkj : k ≤ j)
    (hloop : wp (writeLoop sb ip src n off 0 n) (fun _ s' => Within base j s'.lh ∧
      (s'.itable ip).inum = (s.itable ip).inum ∧ ∀ b ∈ s.lh, b ∈ s'.lh) (Stops sb base K) s)
    (hd : sb.iblock (s.itable ip).inum ∈ base ∨ sb.iblock (s.itable ip).inum ∈ s.lh ∨ 1 ≤ d)
    (hK : j ≤ K) :
    wp (writei sb ip src off n) (fun _ s' => Within base (j + d) s'.lh) (Stops sb base K) s := by
  rw [writei, wp_bind, wp_inode]
  split
  · exact h.mono (by omega)
  · split
    · exact h.mono (by omega)
    · rw [wp_bind]
      refine hloop.mono fun r s₁ h₁ => ?_
      obtain ⟨hw₁, hinum₁, hlh₁⟩ := h₁
      rw [wp_bind, wp_inode, wp_bind]
      have hsize : wp (whenever ((s₁.itable ip).node.size.toNat < off + r)
          (setNode ip (·.setSize (off + r)))) (fun _ s' => s'.lh = s₁.lh ∧
            (s'.itable ip).inum = (s₁.itable ip).inum) (Stops sb base K) s₁ := by
        rw [whenever]
        split
        · exact ⟨rfl, by rw [itable_setInode, Function.update_self]⟩
        · exact ⟨rfl, rfl⟩
      refine hsize.mono fun _ s₂ h₂ => ?_
      rw [wp_bind]
      have hd₂ : sb.iblock (s₂.itable ip).inum ∈ base ∨ sb.iblock (s₂.itable ip).inum ∈ s₂.lh ∨
          1 ≤ d := by
        rw [h₂.1, h₂.2, hinum₁]
        exact hd.imp_right (Or.imp_left (hlh₁ _))
      exact (iupdate_logs (by rw [h₂.1]; exact hw₁) hd₂ hK).mono fun _ s₃ h₃ => h₃.1

/-- What `writei` logs: the blocks with what is allocated for them, and the block of the inode. -/
theorem writei_logs {cost : Nat} (h : Within base k s.lh) (hβ : BitmapCost sb base β)
    (hind : ind = false → off + n ≤ NDIRECT * BSIZE)
    (hc : c = β + 1 ∨ (c = 1 ∧ off / BSIZE < MAXFILE ∧
      blockAddr s.disk (s.itable ip).node (off / BSIZE) ≠ 0))
    (hcost : 0 < n → indirectCost ind β s ip + c + (span off n - 1) * (β + 1) ≤ cost)
    (hd : sb.iblock (s.itable ip).inum ∈ base ∨ sb.iblock (s.itable ip).inum ∈ s.lh ∨ 1 ≤ d)
    (hK : k + cost ≤ K) :
    wp (writei sb ip src off n) (fun _ s' => Within base (k + cost + d) s'.lh)
      (Stops sb base K) s := by
  refine writei_logs_of_loop h (Nat.le_add_right ..) ?_ hd hK
  cases n with
  | zero => exact ⟨h.mono (Nat.le_add_right ..), rfl, fun _ hb => hb⟩
  | succ n =>
      have hb : Budget base ind β (k + indirectCost ind β s ip) s ip := ⟨k, le_rfl, h⟩
      have hle : k + indirectCost ind β s ip + c + (span off (n + 1 - 0) - 1) * (β + 1) ≤
          k + cost := by
        have := hcost (Nat.succ_pos n)
        rw [Nat.sub_zero]
        omega
      exact (writeLoop_logs hb hβ hind (Nat.succ_pos n) hc (hle.trans hK)).mono
        fun _ s' hs => ⟨hs.1.mono hle, hs.2⟩

/-- What `writei` logs if the blocks have addresses. -/
theorem writei_overwrites (h : Within base k s.lh)
    (ha : Addressed s.disk (s.itable ip).node (off + n))
    (hd : sb.iblock (s.itable ip).inum ∈ base ∨ sb.iblock (s.itable ip).inum ∈ s.lh ∨ 1 ≤ d)
    (hK : k + span off n ≤ K) :
    wp (writei sb ip src off n) (fun _ s' => Within base (k + span off n + d) s'.lh)
      (Stops sb base K) s := by
  refine writei_logs_of_loop h (Nat.le_add_right ..) ?_ hd hK
  refine (writeLoop_overwrites h ha (Nat.le_refl (off + (n - 0))) hK).mono fun _ s' hs => ?_
  exact ⟨hs.1, by rw [hs.2.itable], hs.2.lh⟩

end Xv6.Fs
