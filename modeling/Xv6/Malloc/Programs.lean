import Xv6.Lib.Run
import Xv6.Malloc.FreeList

/-!
# Programs that use `malloc` and `free`

The free blocks and the blocks of the program make up the memory from `sbrk`, each byte
once.  The calls keep this, and they return: `free` finds its place in one tour of the list,
and `malloc` makes at most two, since after `morecore` there is a block that is large enough.
-/

namespace Xv6.Malloc

open Cycle

/-- The bytes of some blocks. -/
def cover (bs : List Block) (x : Nat) : Nat := Extent.cover (bs.map Block.extent) x

/-- The allocator with the free blocks `bs` when the program has the blocks `live`. -/
structure Inv (base : Nat) (s : Heap) (live bs : List Block) : Prop where
  list : FreeList base s.mem s.freep bs
  live_size : ∀ b ∈ live, (s.mem b.addr).size = b.size
  live_pos : ∀ b ∈ live, 0 < b.size
  covers : ∀ x, cover bs x + cover live x = cover s.regions x
  once : ∀ x, cover s.regions x ≤ 1
  inside : ∀ r ∈ s.regions, base + UNIT ≤ r.addr ∧ r.stop ≤ s.top
  units : (bs.map Block.size).sum + (live.map Block.size).sum = (s.regions.map Block.size).sum
  total : s.total ≤ MEMORY
  above : base + UNIT ≤ s.top

section Inv

variable {base fuel prevp n nu : Nat} {s s' : Heap} {live live' bs bs' pre post : List Block}
  {b c p : Block} {sbrk : Nat → Option Nat} {l : List Nat}

theorem cover_append (bs bs' : List Block) (x : Nat) :
    cover (bs ++ bs') x = cover bs x + cover bs' x := by
  rw [cover, List.map_append, Extent.cover_append]
  rfl

theorem cover_perm {bs : List Block} (h : bs.Perm bs') (x : Nat) : cover bs x = cover bs' x :=
  Extent.cover_perm (h.map _)

theorem has_addr (hb : 0 < b.size) : b.extent.has b.addr = true :=
  Extent.has_iff.mpr ⟨Nat.le_refl _, b.addr_lt_stop hb⟩

/-- Two blocks of a list that do not overlap. -/
theorem apart_of_cover {bs rest : List Block} (h : ∀ x, cover bs x ≤ 1)
    (hp : bs.Perm (b :: c :: rest)) (hb : 0 < b.size) (hc : 0 < c.size) :
    b.stop ≤ c.addr ∨ c.stop ≤ b.addr := by
  have hle : ∀ x, Extent.cover (b.extent :: c.extent :: rest.map Block.extent) x ≤ 1 := by
    intro x
    have hx := h x
    rwa [cover_perm hp] at hx
  exact Extent.apart_of_cover_le hle (Nat.mul_pos (by decide) hb) (Nat.mul_pos (by decide) hc)

theorem Inv.cover_le (h : Inv base s live bs) (x : Nat) : cover (bs ++ live) x ≤ 1 := by
  rw [cover_append, h.covers]
  exact h.once x

theorem Inv.perm (h : Inv base s live bs) (hp : live.Perm live') : Inv base s live' bs :=
  ⟨h.list, fun b hb => h.live_size b (hp.mem_iff.mpr hb), fun b hb => h.live_pos b (hp.mem_iff.mpr hb),
    fun x => by rw [← cover_perm hp]; exact h.covers x, h.once, h.inside,
    by rw [← (hp.map Block.size).sum_eq]; exact h.units, h.total, h.above⟩

/-- A free block and a block of the program. -/
theorem Inv.apart (h : Inv base s live bs) (hc : c ∈ bs) (hb : b ∈ live) :
    c.stop ≤ b.addr ∨ b.stop ≤ c.addr := by
  obtain ⟨l₁, l₂, rfl⟩ := List.append_of_mem hc
  obtain ⟨l₃, l₄, rfl⟩ := List.append_of_mem hb
  have hp : (l₁ ++ c :: l₂ ++ (l₃ ++ b :: l₄)).Perm (c :: b :: (l₁ ++ l₂ ++ (l₃ ++ l₄))) := by
    refine (List.perm_middle.append List.perm_middle).trans ?_
    exact List.perm_middle.cons c
  exact apart_of_cover h.cover_le hp (h.list.pos c hc) (h.live_pos b hb)

/-- Two blocks of the program. -/
theorem Inv.apart_live (h : Inv base s (b :: live) bs) (hc : c ∈ live) :
    b.stop ≤ c.addr ∨ c.stop ≤ b.addr := by
  obtain ⟨l₁, l₂, rfl⟩ := List.append_of_mem hc
  have hp : (bs ++ b :: (l₁ ++ c :: l₂)).Perm (b :: c :: (l₁ ++ l₂ ++ bs)) :=
    List.perm_append_comm.trans ((List.perm_middle.cons b).append_right bs)
  exact apart_of_cover h.cover_le hp (h.live_pos b List.mem_cons_self)
    (h.live_pos c (List.mem_cons_of_mem _ hc))

/-- The blocks are in the memory from `sbrk`. -/
theorem Inv.mem_regions (h : Inv base s live bs) (hb : b ∈ bs ∨ b ∈ live) :
    base + UNIT ≤ b.addr ∧ b.stop ≤ s.top := by
  have hpos : 0 < b.size := hb.elim (h.list.pos b) (h.live_pos b)
  have hin : ∀ x, b.extent.has x = true → ∃ r ∈ s.regions, r.extent.has x = true := by
    intro x hx
    have hc : 0 < cover s.regions x := by
      rw [← h.covers]
      rcases hb with hb | hb
      · exact Nat.add_pos_left (Extent.cover_pos.mpr ⟨_, List.mem_map_of_mem hb, hx⟩) _
      · exact Nat.add_pos_right _ (Extent.cover_pos.mpr ⟨_, List.mem_map_of_mem hb, hx⟩)
    obtain ⟨e, he, hex⟩ := Extent.cover_pos.mp hc
    obtain ⟨r, hr, rfl⟩ := List.mem_map.mp he
    exact ⟨r, hr, hex⟩
  have hlt := b.addr_lt_stop hpos
  constructor
  · obtain ⟨r, hr, hx⟩ := hin b.addr (has_addr hpos)
    have h1 := (h.inside r hr).1
    have h2 := (Extent.has_iff.mp hx).1
    exact Nat.le_trans h1 h2
  · obtain ⟨r, hr, hx⟩ := hin (b.stop - 1) (Extent.has_iff.mpr
      ⟨Nat.le_sub_one_of_lt hlt, Nat.sub_one_lt (by omega)⟩)
    have h1 := (h.inside r hr).2
    have h2 : b.stop - 1 < r.stop := (Extent.has_iff.mp hx).2
    omega

/-- The sizes fit into a `uint`. -/
theorem Inv.sum_lt (h : Inv base s live bs) :
    (bs.map Block.size).sum + (live.map Block.size).sum < UINT := by
  have hm := h.total
  rw [h.units]
  unfold Heap.total UNIT MEMORY at hm
  unfold UINT
  omega

/-! ## `free` -/

/-- The place where the loop of `free` ends. -/
theorem Inv.gap (h : Inv base s (b :: live) bs) (hring : ring base bs = pre ++ p :: post)
    (hplace : place s.mem b.addr p.addr = true) :
    Gap base s.mem bs pre p post b := by
  have hb : b ∈ b :: live := List.mem_cons_self
  have hbpos := h.live_pos b hb
  have hbase := (h.mem_regions (.inr hb)).1
  have hstop := b.addr_lt_stop hbpos
  obtain ⟨hlt, hpost⟩ := (h.list.place_iff hring (by unfold UNIT at hbase; omega)).mp hplace
  have hsum := h.sum_lt
  rw [List.map_cons, List.sum_cons] at hsum
  refine ⟨hring, h.live_size b hb, hbpos, hlt, ?_, fun c hc => ?_, by omega⟩
  · have hp : p ∈ ring base bs := by rw [hring]; simp
    rcases List.mem_cons.mp hp with rfl | hp
    · exact Nat.le_of_lt hlt
    · have := h.apart hp hb
      omega
  · have h1 := h.apart (mem_of_ring_split hring hc) hb
    have h2 := hpost c hc
    have h3 := c.addr_le_stop
    omega

theorem cover_ring (base : Nat) (bs : List Block) (x : Nat) : cover (ring base bs) x = cover bs x :=
  Extent.cover_empty base

theorem sum_ring (base : Nat) (bs : List Block) :
    ((ring base bs).map Block.size).sum = (bs.map Block.size).sum := by
  simp [ring]

/-- The block is in the list, alone or as a part of another. -/
theorem Gap.exists_size {mem : Nat → Header} (g : Gap base mem bs pre p post b)
    (hring : ring base bs' = pre ++ join p (join b post)) :
    ∃ c ∈ bs', b.size ≤ c.size := by
  obtain ⟨size, post', hj, hle, -⟩ := join_eq b post
  have hmem : ∃ c ∈ ring base bs', b.size ≤ c.size := by
    rw [hring, hj, join]
    split
    · exact ⟨_, List.mem_append_right _ List.mem_cons_self, Nat.le_trans hle (Nat.le_add_left _ _)⟩
    · exact ⟨_, List.mem_append_right _ (List.mem_cons_of_mem _ List.mem_cons_self), hle⟩
  obtain ⟨c, hc, hsize⟩ := hmem
  rcases List.mem_cons.mp hc with rfl | hc
  · exact absurd (Nat.lt_of_lt_of_le g.pos hsize) (Nat.lt_irrefl 0)
  · exact ⟨c, hc, hsize⟩

theorem Inv.inserted (h : Inv base s (b :: live) bs) (g : Gap base s.mem bs pre p post b) :
    ∃ bs', Inv base { s with
        mem := linkPrev (linkNext s.mem b.addr p.addr) b.addr p.addr, freep := p.addr } live bs' ∧
      (∃ c ∈ bs', b.size ≤ c.size) ∧ bs'.length ≤ bs.length + 1 := by
  obtain ⟨bs', hring, hlist⟩ := g.insert h.list
  obtain ⟨-, -, -, -, -, hframe⟩ := g.prev_linked h.list
  have hcover : ∀ x, cover bs' x = cover bs x + cover [b] x := by
    intro x
    have h1 : cover (join p (join b post)) x = cover (p :: b :: post) x := by
      rw [cover, cover_join]
      show cover ([p] ++ join b post) x = cover ([p] ++ (b :: post)) x
      rw [cover_append, cover_append]
      exact congrArg _ (cover_join b post x)
    have h2 : cover (p :: b :: post) x = cover ([b] ++ p :: post) x :=
      cover_perm (List.Perm.swap b p post) x
    rw [← cover_ring base bs', hring, cover_append, h1, h2, ← cover_ring base bs, g.split,
      cover_append, cover_append]
    omega
  have hsum : (bs'.map Block.size).sum = (bs.map Block.size).sum + b.size := by
    rw [← sum_ring base bs', hring, ← sum_ring base bs, g.split, List.map_append, List.sum_append,
      sum_join, sum_join, List.map_append, List.sum_append, List.map_cons, List.sum_cons]
    omega
  refine ⟨bs', ⟨hlist, fun d hd => ?_, fun d hd => h.live_pos d (List.mem_cons_of_mem _ hd),
    fun x => ?_, h.once, h.inside, ?_, h.total, h.above⟩, g.exists_size hring, ?_⟩
  · -- the headers of the other blocks are not touched
    have hd' : d ∈ b :: live := List.mem_cons_of_mem _ hd
    have hdstop := d.addr_lt_stop (h.live_pos d hd')
    have hbstop := b.addr_lt_stop g.pos
    have hdb : d.addr ≠ b.addr := by
      have := h.apart_live hd
      omega
    have hdp : d.addr ≠ p.addr := by
      have hp : p ∈ ring base bs := by rw [g.split]; simp
      rcases List.mem_cons.mp hp with rfl | hp
      · have := (h.mem_regions (.inr hd')).1
        unfold UNIT at this
        simp only
        omega
      · have h1 := h.apart hp hd'
        have h2 := p.addr_lt_stop (h.list.pos p hp)
        omega
    show (linkPrev (linkNext s.mem b.addr p.addr) b.addr p.addr d.addr).size = d.size
    rw [hframe _ hdb hdp]
    exact h.live_size d hd'
  · have h1 := h.covers x
    have h2 : cover (b :: live) x = cover [b] x + cover live x := cover_append [b] live x
    rw [hcover]
    show _ = cover s.regions x
    omega
  · have h1 := h.units
    rw [List.map_cons, List.sum_cons] at h1
    rw [hsum]
    show _ = (s.regions.map Block.size).sum
    omega
  · have h1 : (ring base bs').length = bs'.length + 1 := rfl
    have h2 : (ring base bs).length = bs.length + 1 := rfl
    have h3 := length_join p (join b post)
    have h4 := length_join b post
    rw [hring, List.length_append] at h1
    rw [g.split, List.length_append, List.length_cons] at h2
    omega

theorem Inv.free (h : Inv base s (b :: live) bs) (hs : free fuel s (b.addr + UNIT) = some s') :
    ∃ bs', Inv base s' live bs' ∧ (∃ c ∈ bs', b.size ≤ c.size) ∧ bs'.length ≤ bs.length + 1 := by
  unfold Malloc.free at hs
  rw [Nat.add_sub_cancel] at hs
  obtain ⟨p₀, hscan, rfl⟩ := Option.map_eq_some_iff.mp hs
  have hp₀ : p₀ ∈ (ring base bs).map Block.addr := scan_mem h.list.links h.list.freep hscan
  obtain ⟨p, hp, rfl⟩ := List.mem_map.mp hp₀
  obtain ⟨pre, post, hring⟩ := List.append_of_mem hp
  exact h.inserted (h.gap hring (scan_test hscan))

/-- One tour of the list is enough. -/
theorem Inv.free_isSome (h : Inv base s (b :: live) bs) (hfuel : bs.length < fuel) :
    (Malloc.free fuel s (b.addr + UNIT)).isSome := by
  have hb : b ∈ b :: live := List.mem_cons_self
  have hbase := (h.mem_regions (.inr hb)).1
  have hbstop := b.addr_lt_stop (h.live_pos b hb)
  have hlt : base < b.addr := by
    unfold UNIT at hbase
    omega
  have hne : ∀ c ∈ bs, c.addr ≠ b.addr := by
    intro c hc
    have h1 := h.apart hc hb
    have h2 := c.addr_lt_stop (h.list.pos c hc)
    omega
  obtain ⟨pre, p, post, hring, hp, hpost⟩ := exists_last bs hlt h.list.apart hne
  obtain ⟨l, hpath, hperm⟩ := h.list.links.turn h.list.freep
  have hlen : l.length = bs.length := by
    have := hperm.length_eq
    simpa using this
  have hmem : p.addr ∈ s.freep :: l := by
    refine hperm.mem_iff.mpr ?_
    show p.addr ∈ (ring base bs).map Block.addr
    exact List.mem_map_of_mem (by rw [ring, hring]; simp)
  unfold Malloc.free
  rw [Nat.add_sub_cancel, Option.isSome_map]
  exact scan_isSome hpath hmem ((h.list.place_iff hring hlt).mpr ⟨hp, hpost⟩) (by omega)

/-! ## A block is taken -/

theorem size_setPtr (mem : Nat → Header) (a v x : Nat) : (setPtr mem a v x).size = (mem x).size := by
  by_cases hx : x = a
  · rw [hx, setPtr_self]
  · rw [setPtr_of_ne hx]

theorem link_setSize (mem : Nat → Header) (a v : Nat) : link (setSize mem a v) = link mem := by
  funext x
  by_cases hx : x = a
  · rw [link, hx, setSize_self]
    rfl
  · rw [link, setSize_of_ne hx]
    rfl

/-- Other blocks after a block. -/
theorem ring_replace (hring : ring base bs = pre ++ p :: post) (post' : List Block) :
    ∃ bs', ring base bs' = pre ++ p :: post' ∧ ∀ c ∈ bs', c ∈ bs ∨ c ∈ post' := by
  cases pre with
  | nil =>
      obtain ⟨rfl, rfl⟩ : ⟨base, 0⟩ = p ∧ bs = post := List.cons.inj hring
      exact ⟨post', rfl, fun c hc => .inr hc⟩
  | cons a pre =>
      obtain ⟨rfl, rfl⟩ : ⟨base, 0⟩ = a ∧ bs = pre ++ p :: post := List.cons.inj hring
      refine ⟨pre ++ p :: post', rfl, fun c hc => ?_⟩
      rcases List.mem_append.mp hc with hc | hc
      · exact .inl (List.mem_append_left _ hc)
      · rcases List.mem_cons.mp hc with rfl | hc
        · exact .inl (by simp)
        · exact .inr hc

theorem Inv.fits (h : Inv base s live bs) (hprev : prevp ∈ (ring base bs).map Block.addr)
    (hn : 0 < n) (hsize : n ≤ (s.mem (link s.mem prevp)).size) :
    ∃ pre p q post, ring base bs = pre ++ p :: q :: post ∧ prevp = p.addr ∧ link s.mem prevp = q.addr ∧
      n ≤ q.size := by
  obtain ⟨p, hp, rfl⟩ := List.mem_map.mp hprev
  obtain ⟨pre, post, hring⟩ := List.append_of_mem hp
  cases post with
  | nil =>
      rw [h.list.link_last hring, h.list.sizes ⟨base, 0⟩ List.mem_cons_self] at hsize
      exact absurd (Nat.lt_of_lt_of_le hn hsize) (Nat.lt_irrefl 0)
  | cons q post =>
      have hlink := h.list.link_cons hring
      have hq : q ∈ ring base bs := by rw [hring]; simp
      rw [hlink, h.list.sizes q hq] at hsize
      exact ⟨pre, p, q, post, hring, rfl, hlink, hsize⟩

section Take

variable {pre post bs' r : List Block} {p q : Block}

theorem pairwise_next {mem : Nat → Header} {freep : Nat} (hsplit : ring base bs = pre ++ p :: q :: post)
    (h : FreeList base mem freep bs) :
    (pre ++ p :: post).Pairwise Block.Before ∧ (∀ a ∈ pre ++ [p], a.Before q) ∧
      ∀ c ∈ post, q.Before c := by
  have hapart := h.apart
  rw [hsplit] at hapart
  have hsub : (pre ++ p :: post).Sublist (pre ++ p :: q :: post) :=
    (List.Sublist.refl pre).append ((List.sublist_cons_self q post).cons_cons p)
  rw [show pre ++ p :: q :: post = (pre ++ [p]) ++ q :: post by simp] at hapart
  obtain ⟨-, h2, h3⟩ := List.pairwise_append.mp hapart
  refine ⟨?_, fun a ha => h3 a ha q List.mem_cons_self, (List.pairwise_cons.mp h2).1⟩
  have hapart' := h.apart
  rw [hsplit] at hapart'
  exact hapart'.sublist hsub

theorem sum_replace (hsplit : ring base bs = pre ++ p :: q :: post)
    (hring : ring base bs' = pre ++ p :: (r ++ post)) :
    (bs'.map Block.size).sum + q.size = (bs.map Block.size).sum + (r.map Block.size).sum := by
  rw [← sum_ring base bs', hring, ← sum_ring base bs, hsplit]
  simp only [List.map_append, List.map_cons, List.sum_append, List.sum_cons]
  omega

theorem cover_replace (hsplit : ring base bs = pre ++ p :: q :: post)
    (hring : ring base bs' = pre ++ p :: (r ++ post)) (x : Nat) :
    cover bs' x + cover [q] x = cover bs x + cover r x := by
  have h1 : pre ++ p :: (r ++ post) = (pre ++ [p]) ++ r ++ post := by simp
  have h2 : pre ++ p :: q :: post = (pre ++ [p]) ++ [q] ++ post := by simp
  rw [← cover_ring base bs', hring, ← cover_ring base bs, hsplit, h1, h2]
  simp only [cover_append]
  omega

/-- The whole block is taken. -/
theorem Inv.take_all (h : Inv base s live bs) (hsplit : ring base bs = pre ++ p :: q :: post) :
    ∃ bs', Inv base { s with mem := setPtr s.mem p.addr (s.mem q.addr).ptr, freep := p.addr }
      (q :: live) bs' := by
  obtain ⟨bs', hring, hsub⟩ := ring_replace hsplit post
  obtain ⟨hapart, -, -⟩ := pairwise_next hsplit h.list
  have hsub' : ∀ c ∈ ring base bs', c ∈ ring base bs := by
    intro c hc
    rw [hring] at hc
    rw [hsplit]
    simp only [List.mem_append, List.mem_cons] at hc ⊢
    tauto
  have hpos : ∀ c ∈ bs', 0 < c.size := by
    intro c hc
    rcases hsub c hc with hc | hc
    · exact h.list.pos c hc
    · exact h.list.pos c (mem_of_ring_split hsplit (List.mem_cons_of_mem _ hc))
  have hlinks : Path (link (setPtr s.mem p.addr (s.mem q.addr).ptr)) base (bs'.map Block.addr)
      base := by
    refine (path_ring hring).mpr ?_
    cases (path_ring hsplit).mp h.list.links with
    | step _ hpath =>
        refine hpath.from ?_ fun x hx => ?_
        · rw [link, setPtr_self]
          rfl
        · obtain ⟨c, hc, rfl⟩ := List.mem_map.mp hx
          rw [link, setPtr_of_ne (addr_ne_of_split hapart hc)]
          rfl
  refine ⟨bs', ⟨hlinks, fun c hc => ?_, hpos, hring ▸ hapart, ?_⟩, fun d hd => ?_, fun d hd => ?_,
    fun x => ?_, h.once, h.inside, ?_, h.total, h.above⟩
  · show (setPtr s.mem _ _ c.addr).size = c.size
    rw [size_setPtr]
    exact h.list.sizes c (hsub' c hc)
  · show p.addr ∈ _
    rw [hring]
    simp
  · show (setPtr s.mem _ _ d.addr).size = d.size
    rw [size_setPtr]
    rcases List.mem_cons.mp hd with rfl | hd
    · exact h.list.sizes d (List.mem_cons_of_mem _ (mem_of_ring_split hsplit List.mem_cons_self))
    · exact h.live_size d hd
  · rcases List.mem_cons.mp hd with rfl | hd
    · exact h.list.pos d (mem_of_ring_split hsplit List.mem_cons_self)
    · exact h.live_pos d hd
  · have h1 := cover_replace (r := []) hsplit hring x
    have h2 := h.covers x
    have h3 : cover (q :: live) x = cover [q] x + cover live x := cover_append [q] live x
    have h4 : cover [] x = 0 := rfl
    show _ = cover s.regions x
    omega
  · have h1 := sum_replace (r := []) hsplit hring
    have h2 := h.units
    rw [List.map_cons, List.sum_cons]
    show _ = (s.regions.map Block.size).sum
    simp only [List.map_nil, List.sum_nil] at h1
    omega

/-- The tail of the block is taken. -/
theorem Inv.take_tail (h : Inv base s live bs) (hsplit : ring base bs = pre ++ p :: q :: post) {n : Nat}
    (hn : 0 < n) (hlt : n < q.size) :
    ∃ bs', Inv base { s with
        mem := setSize (setSize s.mem q.addr (q.size - n)) (q.addr + UNIT * (q.size - n)) n
        freep := p.addr } (⟨q.addr + UNIT * (q.size - n), n⟩ :: live) bs' := by
  have hq : q ∈ bs := mem_of_ring_split hsplit List.mem_cons_self
  generalize hx : q.addr + UNIT * (q.size - n) = x
  have hxq : q.addr < x := by
    unfold UNIT at hx
    omega
  have hxstop : x < q.stop := by
    unfold Block.stop UNIT at *
    omega
  have hsize : q.size < UINT := by
    have h1 := h.sum_lt
    rw [← sum_ring base bs, hsplit] at h1
    simp only [List.map_append, List.map_cons, List.sum_append, List.sum_cons] at h1
    omega
  obtain ⟨bs', hring, hsub⟩ := ring_replace hsplit (⟨q.addr, q.size - n⟩ :: post)
  obtain ⟨hapart, hbefore, hafter⟩ := pairwise_next hsplit h.list
  -- the other headers are outside `q`
  have hout : ∀ a, a < q.addr ∨ q.stop ≤ a →
      setSize (setSize s.mem q.addr (q.size - n)) x n a = s.mem a := by
    intro a ha
    rw [setSize_of_ne (by omega), setSize_of_ne (by omega)]
  have hlink : link (setSize (setSize s.mem q.addr (q.size - n)) x n) = link s.mem := by
    rw [link_setSize, link_setSize]
  have hcut : q.size - n + n = q.size := by omega
  have hpos : ∀ c ∈ bs', 0 < c.size := by
    intro c hc
    rcases hsub c hc with hc | hc
    · exact h.list.pos c hc
    · rcases List.mem_cons.mp hc with rfl | hc
      · exact Nat.sub_pos_of_lt hlt
      · exact h.list.pos c (mem_of_ring_split hsplit (List.mem_cons_of_mem _ hc))
  have hapart' : (pre ++ p :: ⟨q.addr, q.size - n⟩ :: post).Pairwise Block.Before := by
    have hall := h.list.apart
    rw [hsplit] at hall
    obtain ⟨hpre, htail, hcross⟩ := List.pairwise_append.mp hall
    obtain ⟨hp, htail⟩ := List.pairwise_cons.mp htail
    obtain ⟨-, hpost⟩ := List.pairwise_cons.mp htail
    have hshort : (⟨q.addr, q.size - n⟩ : Block).stop ≤ q.stop := by
      unfold Block.stop UNIT
      dsimp only
      omega
    refine List.pairwise_append.mpr ⟨hpre, List.pairwise_cons.mpr ⟨fun c hc => ?_,
      List.pairwise_cons.mpr ⟨fun c hc => Nat.lt_of_le_of_lt hshort (hafter c hc), hpost⟩⟩,
      fun a ha c hc => ?_⟩
    · rcases List.mem_cons.mp hc with rfl | hc
      · exact hp q List.mem_cons_self
      · exact hp c (List.mem_cons_of_mem _ hc)
    · rcases List.mem_cons.mp hc with rfl | hc
      · exact hcross a ha _ List.mem_cons_self
      · rcases List.mem_cons.mp hc with rfl | hc
        · exact hcross a ha q (List.mem_cons_of_mem _ List.mem_cons_self)
        · exact hcross a ha c (List.mem_cons_of_mem _ (List.mem_cons_of_mem _ hc))
  have hlinks : Path (link (setSize (setSize s.mem q.addr (q.size - n)) x n)) base
      (bs'.map Block.addr) base := by
    rw [hlink]
    exact (path_ring hring).mpr ((path_ring hsplit).mp h.list.links)
  refine ⟨bs', ⟨hlinks, fun c hc => ?_, hpos, hring ▸ hapart', ?_⟩, fun d hd => ?_, fun d hd => ?_,
    fun y => ?_, h.once, h.inside, ?_, h.total, h.above⟩
  · show (setSize _ x n c.addr).size = c.size
    rw [hring] at hc
    have hc' : c = ⟨q.addr, q.size - n⟩ ∨ c ∈ pre ++ [p] ∨ c ∈ post := by
      simp only [List.mem_append, List.mem_cons, List.not_mem_nil] at hc ⊢
      tauto
    have hcs : c ∈ pre ++ [p] ∨ c ∈ post → (s.mem c.addr).size = c.size := fun hc =>
      h.list.sizes c (by
        rw [hsplit]
        simp only [List.mem_append, List.mem_cons, List.not_mem_nil] at hc ⊢
        tauto)
    rcases hc' with rfl | hc'
    · rw [setSize_of_ne (Nat.ne_of_lt hxq), setSize_self]
      exact Nat.mod_eq_of_lt (by omega)
    · have hside : c.addr < q.addr ∨ q.stop ≤ c.addr :=
        hc'.imp (fun hc => before_addr (hbefore c hc)) fun hc => Nat.le_of_lt (hafter c hc)
      rw [hout _ hside]
      exact hcs hc'
  · show p.addr ∈ _
    rw [hring]
    simp
  · show (setSize _ x n d.addr).size = d.size
    rcases List.mem_cons.mp hd with rfl | hd
    · rw [setSize_self]
      exact Nat.mod_eq_of_lt (by omega)
    · have h1 := h.apart hq hd
      have h2 := d.addr_lt_stop (h.live_pos d hd)
      rw [hout _ (by omega)]
      exact h.live_size d hd
  · rcases List.mem_cons.mp hd with rfl | hd
    · exact hn
    · exact h.live_pos d hd
  · have h1 := cover_replace (r := [⟨q.addr, q.size - n⟩]) hsplit hring y
    have h2 := h.covers y
    have h3 : cover (⟨x, n⟩ :: live) y = cover [⟨x, n⟩] y + cover live y :=
      cover_append [⟨x, n⟩] live y
    have h4 : cover [q] y = cover [⟨q.addr, q.size - n⟩] y + cover [⟨x, n⟩] y := by
      rw [← cover_append, ← hx]
      have hq' : q.extent = ⟨q.addr, UNIT * (q.size - n) + UNIT * n⟩ := by
        rw [Block.extent, ← Nat.mul_add, hcut]
      rw [cover, List.map_singleton, hq']
      exact Extent.cover_split ..
    show _ = cover s.regions y
    omega
  · have h1 : (bs'.map Block.size).sum + q.size = (bs.map Block.size).sum + (q.size - n + 0) :=
      sum_replace (r := [⟨q.addr, q.size - n⟩]) hsplit hring
    have h2 := h.units
    show (bs'.map Block.size).sum + (n + (live.map Block.size).sum) =
      (s.regions.map Block.size).sum
    omega

end Take

/-- A block that is large enough is taken. -/
theorem Inv.take (h : Inv base s live bs) (hprev : prevp ∈ (ring base bs).map Block.addr)
    (hn : 0 < n) (hsize : n ≤ (s.mem (link s.mem prevp)).size) :
    ∃ bs', Inv base (take s n prevp (link s.mem prevp)).1
      (⟨(take s n prevp (link s.mem prevp)).2 - UNIT, n⟩ :: live) bs' := by
  obtain ⟨pre, p, q, post, hsplit, rfl, hlink, hle⟩ := h.fits hprev hn hsize
  have hqs : (s.mem q.addr).size = q.size :=
    h.list.sizes q (List.mem_cons_of_mem _ (mem_of_ring_split hsplit List.mem_cons_self))
  rw [hlink]
  unfold Malloc.take
  rw [hqs]
  split
  · rename_i heq
    rw [Nat.add_sub_cancel, ← heq]
    exact h.take_all hsplit
  · rename_i hne
    have hlt : n < q.size := Nat.lt_of_le_of_ne hle (Ne.symm hne)
    have hmod : (setSize s.mem q.addr (q.size - n) q.addr).size = q.size - n := by
      rw [setSize_self]
      refine Nat.mod_eq_of_lt ?_
      have h1 := h.sum_lt
      rw [← sum_ring base bs, hsplit] at h1
      simp only [List.map_append, List.map_cons, List.sum_append, List.sum_cons] at h1
      omega
    dsimp only
    rw [hmod, Nat.add_sub_cancel]
    exact h.take_tail hsplit hn hlt

theorem take_ne_zero (s : Heap) (n prevp p : Nat) : (take s n prevp p).2 ≠ 0 := by
  unfold Malloc.take
  split
  · exact Nat.succ_ne_zero _
  · exact Nat.succ_ne_zero _

/-! ## `morecore` -/

theorem FreeList.congr {mem mem' : Nat → Header} {freep : Nat} (h : FreeList base mem freep bs)
    (hmem : ∀ b ∈ ring base bs, mem' b.addr = mem b.addr) : FreeList base mem' freep bs := by
  refine ⟨h.links.congr fun x hx => ?_, fun b hb => ?_, h.pos, h.apart, h.freep⟩
  · obtain ⟨b, hb, rfl⟩ : ∃ b ∈ ring base bs, b.addr = x := List.mem_map.mp hx
    rw [link, hmem b hb]
    rfl
  · rw [hmem b hb]
    exact h.sizes b hb

/-- The headers are below the end of the memory. -/
theorem Inv.addr_lt_top (h : Inv base s live bs) (hb : b ∈ ring base bs ∨ b ∈ live) :
    b.addr < s.top := by
  have habove := h.above
  have hin : b ∈ bs ∨ b ∈ live → b.addr < s.top := by
    intro hb
    have h1 := (h.mem_regions hb).2
    have h2 := b.addr_lt_stop (hb.elim (h.list.pos b) (h.live_pos b))
    omega
  rcases hb with hb | hb
  · rcases List.mem_cons.mp hb with rfl | hb
    · unfold UNIT at habove
      dsimp only
      omega
    · exact hin (.inl hb)
  · exact hin (.inr hb)

/-- A new region is a block of its own. -/
theorem Inv.grow (h : Inv base s live bs) (gap : Nat) (hnu : 0 < nu)
    (htotal : s.total + UNIT * nu ≤ MEMORY) :
    Inv base { s.grow gap nu with mem := setSize s.mem (s.top + gap) nu }
      (⟨s.top + gap, nu⟩ :: live) bs := by
  have hmem : ∀ {b : Block}, b ∈ ring base bs ∨ b ∈ live →
      setSize s.mem (s.top + gap) nu b.addr = s.mem b.addr := by
    intro b hb
    have := h.addr_lt_top hb
    exact setSize_of_ne (by omega) _
  have hold : ∀ x, (Block.extent ⟨s.top + gap, nu⟩).has x = true → cover s.regions x = 0 := by
    intro x hx
    have hx' : s.top + gap ≤ x := (Extent.has_iff.mp hx).1
    by_contra hne
    obtain ⟨e, he, hex⟩ := Extent.cover_pos.mp (Nat.pos_of_ne_zero hne)
    obtain ⟨r, hr, rfl⟩ := List.mem_map.mp he
    have h1 := (h.inside r hr).2
    have h2 : x < r.stop := (Extent.has_iff.mp hex).2
    omega
  refine ⟨h.list.congr fun b hb => hmem (.inl hb), fun b hb => ?_, fun b hb => ?_, fun x => ?_,
    fun x => ?_, fun r hr => ?_, ?_, ?_, ?_⟩
  · rcases List.mem_cons.mp hb with rfl | hb
    · show (setSize s.mem (s.top + gap) nu (s.top + gap)).size = nu
      rw [setSize_self]
      refine Nat.mod_eq_of_lt ?_
      unfold UNIT MEMORY at htotal
      unfold UINT
      omega
    · show (setSize s.mem (s.top + gap) nu b.addr).size = b.size
      rw [hmem (.inr hb)]
      exact h.live_size b hb
  · rcases List.mem_cons.mp hb with rfl | hb
    · exact hnu
    · exact h.live_pos b hb
  · have h1 := h.covers x
    have h2 := cover_append [⟨s.top + gap, nu⟩] live x
    have h3 := cover_append [⟨s.top + gap, nu⟩] s.regions x
    show cover bs x + cover ([⟨s.top + gap, nu⟩] ++ live) x =
      cover ([⟨s.top + gap, nu⟩] ++ s.regions) x
    omega
  · have h1 := h.once x
    show Extent.cover (Block.extent ⟨s.top + gap, nu⟩ :: s.regions.map Block.extent) x ≤ 1
    rw [Extent.cover_cons]
    split
    · rename_i hx
      have h2 : Extent.cover (s.regions.map Block.extent) x = 0 := hold x hx
      omega
    · exact h1
  · have habove := h.above
    have htop : s.top ≤ (s.grow gap nu).top := by
      show s.top ≤ s.top + gap + UNIT * nu
      omega
    rcases List.mem_cons.mp hr with rfl | hr
    · exact ⟨by dsimp only; omega, Nat.le_refl _⟩
    · exact ⟨(h.inside r hr).1, Nat.le_trans (h.inside r hr).2 htop⟩
  · have h1 := h.units
    show (bs.map Block.size).sum + (nu + (live.map Block.size).sum) =
      nu + (s.regions.map Block.size).sum
    omega
  · show UNIT * (nu + (s.regions.map Block.size).sum) ≤ MEMORY
    rw [Nat.mul_add, Nat.add_comm]
    exact htotal
  · have habove := h.above
    show base + UNIT ≤ s.top + gap + UNIT * nu
    omega

theorem Inv.freep_ne (h : Inv base s live bs) (hbase : 0 < base) : s.freep ≠ 0 := by
  obtain ⟨b, hb, hfreep⟩ := List.mem_map.mp h.list.freep
  have := h.list.base_le hb
  omega

theorem Inv.morecore (h : Inv base s live bs) (hbase : 0 < base) {r : Nat}
    (hm : morecore fuel sbrk s nu = some (s', r)) :
    r = 0 ∧ s' = s ∨ r ≠ 0 ∧ r = s'.freep ∧
      ∃ bs', Inv base s' live bs' ∧ (∃ c ∈ bs', nu ≤ c.size) ∧ bs'.length ≤ bs.length + 1 := by
  unfold Malloc.morecore at hm
  have hnu : 0 < (if nu < 4096 then 4096 else nu) ∧ nu ≤ (if nu < 4096 then 4096 else nu) := by
    split_ifs <;> omega
  generalize (if nu < 4096 then 4096 else nu) = n at hm hnu
  dsimp only at hm
  split at hm
  · cases hm
    exact .inl ⟨rfl, rfl⟩
  · split at hm
    · cases hm
      exact .inl ⟨rfl, rfl⟩
    · rename_i gap _ htotal
      obtain ⟨s'', hfree, heq⟩ := Option.map_eq_some_iff.mp hm
      cases heq
      have hgrow := h.grow gap hnu.1 (by omega)
      obtain ⟨bs', hinv, ⟨c, hc, hsize⟩, hlen⟩ := hgrow.free hfree
      exact .inr ⟨hinv.freep_ne hbase, rfl, bs', hinv, ⟨c, hc, Nat.le_trans hnu.2 hsize⟩, hlen⟩

theorem Inv.morecore_isSome (h : Inv base s live bs) (hfuel : bs.length < fuel) :
    (Malloc.morecore fuel sbrk s nu).isSome := by
  unfold Malloc.morecore
  have hnu : 0 < (if nu < 4096 then 4096 else nu) := by
    split_ifs <;> omega
  generalize (if nu < 4096 then 4096 else nu) = n at hnu ⊢
  dsimp only
  split
  · rfl
  · split
    · rfl
    · rename_i gap _ htotal
      rw [Option.isSome_map]
      exact (h.grow gap hnu (by omega)).free_isSome hfuel

/-! ## `malloc` -/

/-- The program gets no block, or a new one. -/
inductive Result (base n : Nat) (live : List Block) : Heap → Nat → Prop where
  | null {s : Heap} {bs : List Block} : Inv base s live bs → Result base n live s 0
  | block {s : Heap} {r : Nat} {bs : List Block} : r ≠ 0 →
      Inv base s (⟨r - UNIT, n⟩ :: live) bs → Result base n live s r

theorem Inv.mallocLoop (hbase : 0 < base) (hn : 0 < n) (fuel : Nat) :
    ∀ {s : Heap} {bs : List Block} {prevp r : Nat}, Inv base s live bs →
    prevp ∈ (ring base bs).map Block.addr →
    mallocLoop sbrk n fuel s prevp (link s.mem prevp) = some (s', r) →
    Result base n live s' r := by
  induction fuel with
  | zero => exact fun _ _ hm => by cases hm
  | succ fuel ih =>
      intro s bs prevp r h hprev hm
      have hnext : link s.mem prevp ∈ (ring base bs).map Block.addr :=
        h.list.links.next_mem hprev
      unfold Malloc.mallocLoop at hm
      split at hm
      · rename_i hsize
        obtain ⟨bs', hinv⟩ := h.take hprev hn hsize
        have hne := take_ne_zero s n prevp (link s.mem prevp)
        rw [Option.some.inj hm] at hinv hne
        exact .block hne hinv
      · split at hm
        · split at hm
          · cases hm
          · rename_i s₁ r₁ hmore
            rcases h.morecore hbase hmore with ⟨rfl, rfl⟩ | ⟨hne, rfl, bs', hinv, -, -⟩
            · rw [if_pos rfl] at hm
              cases hm
              exact .null h
            · rw [if_neg hne] at hm
              exact ih hinv hinv.list.freep hm
        · exact ih h hnext hm

/-- A tour up to `freep` that finds a block. -/
theorem mallocLoop_isSome_of_fit :
    ∀ {prevp fuel : Nat}, Path (link s.mem) prevp l s.freep → s.freep ∉ l →
      (∃ t ∈ l ++ [s.freep], n ≤ (s.mem t).size) → l.length < fuel →
      (mallocLoop sbrk n fuel s prevp (link s.mem prevp)).isSome := by
  induction l with
  | nil =>
      intro prevp fuel hpath _ hfit hfuel
      obtain ⟨fuel, rfl⟩ : ∃ k, fuel = k + 1 := ⟨fuel - 1, by omega⟩
      obtain ⟨t, ht, hsize⟩ := hfit
      rw [List.mem_singleton.mp ht] at hsize
      cases hpath with
      | last hlink =>
          rw [hlink, Malloc.mallocLoop, if_pos hsize]
          rfl
  | cons c l ih =>
      intro prevp fuel hpath hnot hfit hfuel
      obtain ⟨fuel, rfl⟩ : ∃ k, fuel = k + 1 := ⟨fuel - 1, by omega⟩
      cases hpath with
      | step hlink hpath =>
          rw [hlink, Malloc.mallocLoop]
          split
          · rfl
          · rename_i hsmall
            have hne : c ≠ s.freep := fun he => hnot (he ▸ List.mem_cons_self)
            rw [if_neg hne]
            rw [List.length_cons] at hfuel
            refine ih hpath (fun hm => hnot (List.mem_cons_of_mem _ hm)) ?_ (by omega)
            obtain ⟨t, ht, hsize⟩ := hfit
            rcases List.mem_cons.mp ht with rfl | ht
            · exact absurd hsize hsmall
            · exact ⟨t, ht, hsize⟩

/-- A tour of the list starts and ends at `freep`. -/
theorem Inv.tour (h : Inv base s live bs) :
    ∃ l, Path (link s.mem) s.freep l s.freep ∧ s.freep ∉ l ∧ l.length = bs.length ∧
      (s.freep :: l).Perm ((ring base bs).map Block.addr) := by
  obtain ⟨l, hpath, hperm⟩ := h.list.links.turn h.list.freep
  have hnodup : (s.freep :: l).Nodup := hperm.nodup_iff.mpr (nodup_addr h.list.apart)
  have hlen := hperm.length_eq
  rw [List.length_cons, List.length_cons, List.length_map] at hlen
  exact ⟨l, hpath, (List.nodup_cons.mp hnodup).1, by omega, hperm⟩

theorem Inv.mallocLoop_isSome (h : Inv base s live bs) (hbase : 0 < base) : ∀ {prevp fuel : Nat},
    Path (link s.mem) prevp l s.freep → s.freep ∉ l → l.length + bs.length + 2 < fuel →
    (Malloc.mallocLoop sbrk n fuel s prevp (link s.mem prevp)).isSome := by
  induction l with
  | nil =>
      intro prevp fuel hpath _ hfuel
      obtain ⟨fuel, rfl⟩ : ∃ k, fuel = k + 1 := ⟨fuel - 1, by omega⟩
      rw [List.length_nil] at hfuel
      cases hpath with
      | last hlink =>
          rw [hlink, Malloc.mallocLoop]
          split
          · rfl
          · rw [if_pos rfl]
            cases hmore : Malloc.morecore fuel sbrk s n with
            | none =>
                have hsome : (Malloc.morecore fuel sbrk s n).isSome :=
                  h.morecore_isSome (by omega)
                rw [hmore] at hsome
                cases hsome
            | some res =>
                obtain ⟨s₁, r₁⟩ := res
                dsimp only
                rcases h.morecore hbase hmore with ⟨rfl, rfl⟩ | ⟨hne, rfl, bs', hinv, hfit, hlen⟩
                · rfl
                · -- the second tour finds the new memory
                  rw [if_neg hne]
                  obtain ⟨l', hpath', hnot', hlen', hperm⟩ := hinv.tour
                  refine mallocLoop_isSome_of_fit hpath' hnot' ?_ (by omega)
                  obtain ⟨c, hc, hsize⟩ := hfit
                  have hmem : c.addr ∈ s₁.freep :: l' :=
                    hperm.mem_iff.mpr (List.mem_map_of_mem (List.mem_cons_of_mem _ hc))
                  refine ⟨c.addr, ?_, ?_⟩
                  · simp only [List.mem_cons, List.mem_append] at hmem ⊢
                    tauto
                  · rw [hinv.list.sizes c (List.mem_cons_of_mem _ hc)]
                    exact hsize
  | cons c l ih =>
      intro prevp fuel hpath hnot hfuel
      obtain ⟨fuel, rfl⟩ : ∃ k, fuel = k + 1 := ⟨fuel - 1, by omega⟩
      rw [List.length_cons] at hfuel
      cases hpath with
      | step hlink hpath =>
          rw [hlink, Malloc.mallocLoop]
          split
          · rfl
          · have hne : c ≠ s.freep := fun he => hnot (he ▸ List.mem_cons_self)
            rw [if_neg hne]
            exact ih hpath (fun hm => hnot (List.mem_cons_of_mem _ hm)) (by omega)

end Inv

/-! ## Runs -/

/-- Before the first `malloc`, and after it. -/
inductive Good (base : Nat) (s : State) : Prop where
  | start : s.heap.freep = 0 → s.heap.regions = [] → s.live = [] → base + UNIT ≤ s.heap.top →
      Good base s
  | run {bs : List Block} : Inv base s.heap s.live bs → Good base s

section Runs

variable {base x r : Nat} {s s' : State} {heap : Heap}

/-- The first `malloc` makes the list of `base` alone. -/
theorem Inv.start (base : Nat) {h : Heap} (hregions : h.regions = []) (htop : base + UNIT ≤ h.top) :
    Inv base { h with mem := setSize (setPtr h.mem base base) base 0, freep := base } [] [] := by
  have hptr : link (setSize (setPtr h.mem base base) base 0) base = base := by
    rw [link_setSize, link, setPtr_self]
  have hnone : ∀ {p : Block → Prop}, ∀ b ∈ ([] : List Block), p b := fun _ hb => by cases hb
  refine ⟨⟨.last hptr, fun b hb => ?_, hnone, List.pairwise_singleton _ _, List.mem_cons_self⟩,
    hnone, hnone, fun x => ?_, fun x => ?_, ?_, ?_, ?_, htop⟩
  · rw [List.mem_singleton.mp hb]
    show (setSize _ base 0 base).size = 0
    rw [setSize_self]
    rfl
  · show _ = cover h.regions x
    rw [hregions]
    rfl
  · show cover h.regions x ≤ 1
    rw [hregions]
    exact Nat.zero_le _
  · show ∀ r ∈ h.regions, _
    rw [hregions]
    exact hnone
  · show _ = (h.regions.map Block.size).sum
    rw [hregions]
    rfl
  · show UNIT * (h.regions.map Block.size).sum ≤ MEMORY
    rw [hregions]
    exact Nat.zero_le _

/-- A write inside a block of the program changes no header. -/
theorem Inv.write {s : Heap} {live bs : List Block} {b : Block} (h : Inv base s live bs)
    (hb : b ∈ live) (hlt : b.addr < x) (hstop : x < b.stop) (hd : Header) :
    Inv base { s with mem := Function.update s.mem x hd } live bs := by
  have hfree : ∀ c ∈ ring base bs, c.addr ≠ x := by
    intro c hc
    rcases List.mem_cons.mp hc with rfl | hc
    · have := (h.mem_regions (.inr hb)).1
      dsimp only
      omega
    · have := c.addr_lt_stop (h.list.pos c hc)
      rcases h.apart hc hb with hle | hle <;> omega
  have hlive : ∀ c ∈ live, c.addr ≠ x := by
    intro c hc
    by_cases he : c = b
    · subst he
      omega
    · have hc' : c ∈ live.erase b := (List.mem_erase_of_ne he).mpr hc
      have := c.addr_lt_stop (h.live_pos c hc)
      rcases (h.perm (List.perm_cons_erase hb)).apart_live hc' with hle | hle <;> omega
  refine ⟨h.list.congr fun c hc => Function.update_of_ne (hfree c hc) _ _, fun c hc => ?_,
    h.live_pos, h.covers, h.once, h.inside, h.units, h.total, h.above⟩
  show (Function.update s.mem x hd c.addr).size = c.size
  rw [Function.update_of_ne (hlive c hc)]
  exact h.live_size c hc

/-- What `malloc` starts its loop with. -/
theorem Good.enter (h : Good base s) (hbase : 0 < base) :
    ∃ heap bs, Inv base heap s.live bs ∧ ∀ fuel sbrk nbytes, malloc base fuel sbrk s.heap nbytes =
      mallocLoop sbrk (units nbytes) fuel heap heap.freep (link heap.mem heap.freep) := by
  cases h with
  | start hfreep hregions hlive htop =>
      have hinv := Inv.start base hregions htop
      refine ⟨_, [], hlive.symm.subst (motive := fun l => Inv base _ l []) hinv, ?_⟩
      intro fuel sbrk nbytes
      unfold malloc
      rw [if_pos hfreep]
      rfl
  | @run bs hinv =>
      refine ⟨_, bs, hinv, fun fuel sbrk nbytes => ?_⟩
      unfold malloc
      rw [if_neg (hinv.freep_ne hbase)]
      rfl

theorem units_pos (nbytes : Nat) : 0 < units nbytes := Nat.succ_pos _

theorem Good.malloc (h : Good base s) (hbase : 0 < base) {fuel nbytes : Nat}
    {sbrk : Nat → Option Nat} (hm : malloc base fuel sbrk s.heap nbytes = some (heap, r)) :
    Result base (units nbytes) s.live heap r := by
  obtain ⟨heap₀, bs, hinv, henter⟩ := h.enter hbase
  rw [henter] at hm
  exact Inv.mallocLoop hbase (units_pos nbytes) fuel hinv hinv.list.freep hm

theorem Good.malloc_isSome (h : Good base s) (hbase : 0 < base) :
    ∃ N, ∀ fuel ≥ N, ∀ nbytes sbrk, (Malloc.malloc base fuel sbrk s.heap nbytes).isSome := by
  obtain ⟨heap₀, bs, hinv, henter⟩ := h.enter hbase
  obtain ⟨l, hpath, hnot, hlen, -⟩ := hinv.tour
  refine ⟨2 * bs.length + 3, fun fuel hfuel nbytes sbrk => ?_⟩
  rw [henter]
  exact hinv.mallocLoop_isSome hbase hpath hnot (by omega)

theorem Good.step (h : Good base s) (hbase : 0 < base) {a : Act} (hs : step base s a = some s') :
    Good base s' := by
  cases a with
  | malloc nbytes sbrk fuel =>
      simp only [Malloc.step] at hs
      split at hs
      · split at hs
        · cases hs
        · rename_i heap r hm
          cases h.malloc hbase hm with
          | null hinv =>
              cases hs
              exact .run hinv
          | block hne hinv =>
              rw [if_neg hne] at hs
              cases hs
              exact .run hinv
      · cases hs
  | free b fuel =>
      simp only [Malloc.step] at hs
      split at hs
      · rename_i hb
        obtain ⟨heap, hf, rfl⟩ := Option.map_eq_some_iff.mp hs
        cases h with
        | start _ _ hlive _ =>
            rw [hlive] at hb
            cases hb
        | run hinv =>
            obtain ⟨bs', hinv', -, -⟩ := (hinv.perm (List.perm_cons_erase hb)).free hf
            exact .run hinv'
      · cases hs
  | write b x hd =>
      simp only [Malloc.step] at hs
      split at hs
      · rename_i hb
        obtain ⟨hb, hlt, hstop⟩ := hb
        cases hs
        cases h with
        | start _ _ hlive _ =>
            rw [hlive] at hb
            cases hb
        | @run bs hinv => exact .run (hinv.write hb hlt hstop hd)
      · cases hs

theorem Good.of_run {gap : Nat} {mem : Nat → Header} {as : List Act} (hbase : 0 < base)
    (hrun : Run.exec (Malloc.step base) (init base gap mem) as = some s) : Good base s := by
  refine Run.exec_invariant (fun _ _ _ h hs => h.step hbase hs) ?_ hrun
  exact .start rfl rfl rfl (Nat.le_add_right _ _)

theorem le_units (nbytes : Nat) : nbytes + UNIT ≤ UNIT * units nbytes := by
  unfold units UNIT
  omega

/-- The bytes of a new block. -/
theorem Result.fresh {n : Nat} {live : List Block} (h : Result base n live heap r) (hr : r ≠ 0)
    (hx : r ≤ x) (hx' : x < r - UNIT + UNIT * n) :
    cover heap.regions x = 1 ∧ ∀ b ∈ live, b.extent.has x = false := by
  cases h with
  | null => exact absurd rfl hr
  | block _ hinv =>
      have hhas : (Block.extent ⟨r - UNIT, n⟩).has x = true :=
        Extent.has_iff.mpr ⟨Nat.le_trans (Nat.sub_le _ _) hx, hx'⟩
      constructor
      · have h1 := hinv.once x
        have h2 : 0 < cover (⟨r - UNIT, n⟩ :: live) x :=
          Extent.cover_pos.mpr ⟨_, List.mem_cons_self, hhas⟩
        have h3 := hinv.covers x
        omega
      · intro b hb
        by_contra hne
        rw [Bool.not_eq_false, Extent.has_iff] at hne
        have h1 : b.addr ≤ x := hne.1
        have h2 : x < b.stop := hne.2
        have h3 := hinv.apart_live hb
        have h4 : (⟨r - UNIT, n⟩ : Block).stop = r - UNIT + UNIT * n := rfl
        dsimp only at h3
        omega

theorem Good.free_isSome (h : Good base s) :
    ∃ N, ∀ fuel ≥ N, ∀ b ∈ s.live, (Malloc.free fuel s.heap (b.addr + UNIT)).isSome := by
  cases h with
  | start _ _ hlive _ =>
      refine ⟨0, fun _ _ b hb => ?_⟩
      rw [hlive] at hb
      cases hb
  | @run bs hinv =>
      refine ⟨bs.length + 1, fun fuel hfuel b hb => ?_⟩
      exact (hinv.perm (List.perm_cons_erase hb)).free_isSome hfuel

/-- In every run of a program, before the first `malloc` nothing was allocated.  After it the
free list is circular and ordered with `base` as its first block, no two of its blocks touch,
and the free blocks and the blocks of the program make up the memory from `sbrk`, each byte
once.  A block from `malloc` has the bytes that were asked for, in memory from `sbrk` and
outside the blocks of the program.  All calls return. -/
theorem user_heap {base gap : Nat} {mem : Nat → Header} {as : List Act} {s : State}
    (hbase : 0 < base) (hrun : Run.exec (Malloc.step base) (init base gap mem) as = some s) :
    (s.heap.freep = 0 ∧ s.heap.regions = [] ∧ s.live = [] ∨
      ∃ bs, FreeList base s.heap.mem s.heap.freep bs ∧
        ∀ x, cover bs x + cover s.live x = cover s.heap.regions x ∧ cover s.heap.regions x ≤ 1) ∧
    (∀ nbytes sbrk fuel heap p, Malloc.malloc base fuel sbrk s.heap nbytes = some (heap, p) →
      p ≠ 0 → ∀ x, p ≤ x → x < p + nbytes →
        cover heap.regions x = 1 ∧ ∀ b ∈ s.live, b.extent.has x = false) ∧
    ∃ N, ∀ fuel ≥ N,
      (∀ nbytes sbrk, (Malloc.malloc base fuel sbrk s.heap nbytes).isSome) ∧
      ∀ b ∈ s.live, (Malloc.free fuel s.heap (b.addr + UNIT)).isSome := by
  have hgood := Good.of_run hbase hrun
  refine ⟨?_, fun nbytes sbrk fuel heap p hm hp x hx hx' => ?_, ?_⟩
  · cases hgood with
    | start hfreep hregions hlive _ => exact .inl ⟨hfreep, hregions, hlive⟩
    | @run bs hinv => exact .inr ⟨bs, hinv.list, fun x => ⟨hinv.covers x, hinv.once x⟩⟩
  · have := le_units nbytes
    exact (hgood.malloc hbase hm).fresh hp hx (by omega)
  · obtain ⟨N, hmalloc⟩ := hgood.malloc_isSome hbase
    obtain ⟨N', hfree⟩ := hgood.free_isSome
    refine ⟨max N N', fun fuel hfuel => ⟨hmalloc fuel ?_, hfree fuel ?_⟩⟩
    · exact Nat.le_trans (Nat.le_max_left _ _) hfuel
    · exact Nat.le_trans (Nat.le_max_right _ _) hfuel

end Runs

/-- A program that gets two blocks, writes to one and gives back the other. -/
def twoBlocks : List Act :=
  [.malloc 100 (fun _ => some 8) 10, .malloc 20 (fun _ => none) 10, .write ⟨73440, 3⟩ 73456 ⟨0, 1⟩,
    .free ⟨73488, 8⟩ 10]

theorem user_heap_twoBlocks : ∃ s, Run.exec (step 8000) (init 8000 56 fun _ => ⟨0, 0⟩) twoBlocks = some s ∧
    s.live = [⟨73440, 3⟩] ∧
    (s.heap.freep = 0 ∧ s.heap.regions = [] ∧ s.live = [] ∨
      ∃ bs, FreeList 8000 s.heap.mem s.heap.freep bs ∧
        ∀ x, cover bs x + cover s.live x = cover s.heap.regions x ∧ cover s.heap.regions x ≤ 1) := by
  obtain ⟨s, hrun, hlive⟩ : ∃ s, Run.exec (step 8000) (init 8000 56 fun _ => ⟨0, 0⟩) twoBlocks = some s ∧
      s.live = [⟨73440, 3⟩] := Run.exists_exec_of_check (by decide +kernel)
  exact ⟨s, hrun, hlive, (user_heap (by decide) hrun).1⟩

end Xv6.Malloc
