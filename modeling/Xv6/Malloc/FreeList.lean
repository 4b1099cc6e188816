import Xv6.Malloc.Allocator

/-!
# The list of free blocks

The blocks in address order, with `base` in front.  `join b bs` puts a block before the
blocks `bs` and merges it with the first of them if they touch.  `free` finds the last block
`p` before the block `b` that comes back and leaves `join p (join b post)` where `p` and the
blocks `post` after it were.
-/

namespace Xv6.Malloc

open Cycle

/-! ## Blocks that touch -/

/-- `b` ends before `c`, and they do not touch. -/
def Block.Before (b c : Block) : Prop := b.stop < c.addr

def join (b : Block) : List Block → List Block
  | [] => [b]
  | c :: bs => if b.stop = c.addr then ⟨b.addr, b.size + c.size⟩ :: bs else b :: c :: bs

section Join

variable {b c a : Block} {bs : List Block}

theorem Block.addr_le_stop (b : Block) : b.addr ≤ b.stop := Nat.le_add_right _ _

theorem Block.addr_lt_stop (h : 0 < b.size) : b.addr < b.stop := by
  unfold Block.stop UNIT
  omega

theorem Block.Before.trans {d : Block} (h : b.Before c) (h' : c.Before d) : b.Before d :=
  Nat.lt_trans h (Nat.lt_of_le_of_lt c.addr_le_stop h')

/-- The joined list starts where the block starts, and it ends with the rest. -/
theorem join_eq (b : Block) (bs : List Block) :
    ∃ size bs', join b bs = ⟨b.addr, size⟩ :: bs' ∧ b.size ≤ size ∧ ∀ c ∈ bs', c ∈ bs := by
  cases bs with
  | nil => exact ⟨b.size, [], rfl, Nat.le_refl _, nofun⟩
  | cons c bs =>
      rw [join]
      split
      · exact ⟨_, bs, rfl, Nat.le_add_right _ _, fun d hd => List.mem_cons_of_mem _ hd⟩
      · exact ⟨b.size, c :: bs, rfl, Nat.le_refl _, fun d hd => hd⟩

theorem cover_join (b : Block) (bs : List Block) (x : Nat) :
    Extent.cover ((join b bs).map Block.extent) x = Extent.cover ((b :: bs).map Block.extent) x := by
  cases bs with
  | nil => rfl
  | cons c bs =>
      rw [join]
      split
      · rename_i htouch
        have hc : c.extent = ⟨b.addr + UNIT * b.size, UNIT * c.size⟩ := by
          unfold Block.extent
          rw [← htouch]
          rfl
        have hb : (Block.extent ⟨b.addr, b.size + c.size⟩) =
            ⟨b.addr, UNIT * b.size + UNIT * c.size⟩ := by
          unfold Block.extent
          rw [Nat.mul_add]
        rw [List.map_cons, List.map_cons, List.map_cons, hb, hc]
        exact Extent.cover_split ..
      · rfl

theorem sum_join (b : Block) (bs : List Block) :
    ((join b bs).map Block.size).sum = b.size + (bs.map Block.size).sum := by
  cases bs with
  | nil => rfl
  | cons c bs =>
      rw [join]
      split
      · simp [Nat.add_assoc]
      · rfl

theorem length_join (b : Block) (bs : List Block) : (join b bs).length ≤ bs.length + 1 := by
  cases bs with
  | nil => exact Nat.le_refl _
  | cons c bs =>
      rw [join]
      split
      · simp
      · exact Nat.le_refl _

theorem pos_join (hb : 0 < b.size) (hbs : ∀ c ∈ bs, 0 < c.size) : ∀ c ∈ join b bs, 0 < c.size := by
  cases bs with
  | nil =>
      intro c hc
      rwa [List.mem_singleton.mp hc]
  | cons d bs =>
      intro c hc
      rw [join] at hc
      split at hc
      · rcases List.mem_cons.mp hc with rfl | hc
        · exact Nat.add_pos_left hb _
        · exact hbs c (List.mem_cons_of_mem _ hc)
      · rcases List.mem_cons.mp hc with rfl | hc
        · exact hb
        · exact hbs c hc

/-- A block that ends before the blocks of a list is joined. -/
theorem pairwise_join (h : bs.Pairwise Block.Before) (hb : ∀ c ∈ bs, b.stop ≤ c.addr) :
    (join b bs).Pairwise Block.Before := by
  cases bs with
  | nil => exact List.pairwise_singleton _ _
  | cons c bs =>
      obtain ⟨hc, hbs⟩ := List.pairwise_cons.mp h
      rw [join]
      split
      · rename_i htouch
        refine List.pairwise_cons.mpr ⟨fun d hd => ?_, hbs⟩
        have hd' : c.addr + UNIT * c.size < d.addr := hc d hd
        have htouch' : b.addr + UNIT * b.size = c.addr := htouch
        show b.addr + UNIT * (b.size + c.size) < d.addr
        rw [Nat.mul_add]
        omega
      · rename_i htouch
        have hlt : b.Before c := Nat.lt_of_le_of_ne (hb c List.mem_cons_self) htouch
        refine List.pairwise_cons.mpr ⟨fun d hd => ?_, h⟩
        rcases List.mem_cons.mp hd with rfl | hd
        · exact hlt
        · exact hlt.trans (hc d hd)

/-- What is before the joined blocks. -/
theorem before_join (ha : a.Before b) (hbs : ∀ c ∈ bs, a.Before c) :
    ∀ c ∈ join b bs, a.Before c := by
  obtain ⟨size, bs', hj, -, hsub⟩ := join_eq b bs
  rw [hj]
  intro c hc
  rcases List.mem_cons.mp hc with rfl | hc
  · exact ha
  · exact hbs c (hsub c hc)

/-- The first of the joined blocks ends before `n` if all of them do. -/
theorem stop_join_le (h : a.stop ≤ b.addr) (hbs : ∀ c ∈ bs, a.stop ≤ c.addr) :
    ∀ c ∈ join b bs, a.stop ≤ c.addr := by
  obtain ⟨size, bs', hj, -, hsub⟩ := join_eq b bs
  rw [hj]
  intro c hc
  rcases List.mem_cons.mp hc with rfl | hc
  · exact h
  · exact hbs c (hsub c hc)

end Join

/-! ## The list in memory -/

/-- The list with `base`. -/
def ring (base : Nat) (bs : List Block) : List Block := ⟨base, 0⟩ :: bs

/-- The link of a header. -/
def link (mem : Nat → Header) (p : Nat) : Nat := (mem p).ptr

/-- The list of the free blocks `bs`. -/
structure FreeList (base : Nat) (mem : Nat → Header) (freep : Nat) (bs : List Block) : Prop where
  links : Path (link mem) base (bs.map Block.addr) base
  sizes : ∀ b ∈ ring base bs, (mem b.addr).size = b.size
  pos : ∀ b ∈ bs, 0 < b.size
  apart : (ring base bs).Pairwise Block.Before
  freep : freep ∈ (ring base bs).map Block.addr

section FreeList

variable {base freep bp a x : Nat} {mem mem' : Nat → Header} {bs pre post : List Block}
  {b p c : Block}

/-- The list starts at any of its blocks. -/
theorem path_ring {next : Nat → Nat} (hring : ring base bs = pre ++ p :: post) :
    Path next base (bs.map Block.addr) base ↔
      Path next p.addr ((post ++ pre).map Block.addr) p.addr := by
  cases pre with
  | nil =>
      cases hring
      rw [List.append_nil]
  | cons a pre =>
      obtain ⟨rfl, rfl⟩ : ⟨base, 0⟩ = a ∧ bs = pre ++ p :: post := List.cons.inj hring
      rw [List.map_append, List.map_cons, List.map_append, List.map_cons]
      exact ⟨fun h => h.rotate, fun h => h.rotate⟩

theorem before_addr {b : Block} (h : b.Before c) : b.addr < c.addr :=
  Nat.lt_of_le_of_lt b.addr_le_stop h

theorem nodup_addr {bs : List Block} (h : bs.Pairwise Block.Before) : (bs.map Block.addr).Nodup :=
  List.pairwise_map.mpr (h.imp fun hb => Nat.ne_of_lt (before_addr hb))

theorem mem_of_ring_split (hring : ring base bs = pre ++ p :: post) (hc : c ∈ post) : c ∈ bs := by
  cases pre with
  | nil =>
      obtain ⟨-, rfl⟩ : ⟨base, 0⟩ = p ∧ bs = post := List.cons.inj hring
      exact hc
  | cons a pre =>
      obtain ⟨-, rfl⟩ : ⟨base, 0⟩ = a ∧ bs = pre ++ p :: post := List.cons.inj hring
      exact List.mem_append_right _ (List.mem_cons_of_mem _ hc)

theorem addr_ne_of_split (h : (pre ++ p :: post).Pairwise Block.Before) (hc : c ∈ post ++ pre) :
    c.addr ≠ p.addr := by
  obtain ⟨-, hpost, hpre⟩ := List.pairwise_append.mp h
  rcases List.mem_append.mp hc with hc | hc
  · exact Nat.ne_of_gt (before_addr ((List.pairwise_cons.mp hpost).1 c hc))
  · exact Nat.ne_of_lt (before_addr (hpre c hc p List.mem_cons_self))

/-- Where the link of a block leads. -/
theorem FreeList.link_cons (h : FreeList base mem freep bs) {q : Block}
    (hring : ring base bs = pre ++ p :: q :: post) : link mem p.addr = q.addr := by
  cases (path_ring hring).mp h.links with
  | step hq _ => exact hq

theorem FreeList.link_last (h : FreeList base mem freep bs) (hring : ring base bs = pre ++ [p]) :
    link mem p.addr = base := by
  have hpath := (path_ring hring).mp h.links
  cases pre with
  | nil =>
      cases hring
      cases hpath with
      | last hb => exact hb
  | cons a pre =>
      obtain ⟨rfl, -⟩ : ⟨base, 0⟩ = a ∧ bs = pre ++ [p] := List.cons.inj hring
      cases hpath with
      | step ha _ => exact ha

theorem FreeList.base_le (h : FreeList base mem freep bs) {b : Block} (hb : b ∈ ring base bs) :
    base ≤ b.addr := by
  rcases List.mem_cons.mp hb with rfl | hb
  · exact Nat.le_refl _
  · exact Nat.le_of_lt (before_addr ((List.pairwise_cons.mp h.apart).1 b hb))

/-- The loop of `free` ends at the last block before `bp`. -/
theorem FreeList.place_iff (h : FreeList base mem freep bs)
    (hring : ring base bs = pre ++ p :: post) (hbp : base < bp) :
    place mem bp p.addr = true ↔ p.addr < bp ∧ ∀ c ∈ post, bp < c.addr := by
  have hbase : base ≤ p.addr := h.base_le (by rw [hring]; simp)
  have hplace : place mem bp p.addr = true ↔ p.addr < bp ∧ bp < link mem p.addr ∨
      link mem p.addr ≤ p.addr ∧ (p.addr < bp ∨ bp < link mem p.addr) := by
    simp [place, link]
  rw [hplace]
  cases post with
  | nil =>
      rw [h.link_last hring]
      constructor
      · rintro (⟨h1, h2⟩ | ⟨-, h1 | h2⟩)
        · omega
        · exact ⟨h1, nofun⟩
        · omega
      · rintro ⟨h1, -⟩
        exact .inr ⟨hbase, .inl h1⟩
  | cons q post =>
      have hapart := h.apart
      rw [hring] at hapart
      obtain ⟨hp, hpost⟩ := List.pairwise_cons.mp (List.pairwise_append.mp hapart).2.1
      have hpq : p.addr < q.addr := before_addr (hp q List.mem_cons_self)
      rw [h.link_cons hring]
      constructor
      · rintro (⟨h1, h2⟩ | ⟨h3, -⟩)
        · refine ⟨h1, fun c hc => ?_⟩
          rcases List.mem_cons.mp hc with rfl | hc
          · exact h2
          · exact Nat.lt_trans h2 (before_addr ((List.pairwise_cons.mp hpost).1 c hc))
        · omega
      · rintro ⟨h1, h2⟩
        exact .inl ⟨h1, h2 q List.mem_cons_self⟩

/-- There is a last block before `bp`. -/
theorem exists_last (bs : List Block) : ∀ {a : Block}, a.addr < bp →
    (a :: bs).Pairwise Block.Before → (∀ c ∈ bs, c.addr ≠ bp) →
    ∃ pre p post, a :: bs = pre ++ p :: post ∧ p.addr < bp ∧ ∀ c ∈ post, bp < c.addr := by
  induction bs with
  | nil => exact fun {a} ha _ _ => ⟨[], a, [], rfl, ha, nofun⟩
  | cons d bs ih =>
      intro a ha hapart hne
      obtain ⟨-, hd⟩ := List.pairwise_cons.mp hapart
      by_cases hlt : d.addr < bp
      · obtain ⟨pre, p, post, hsplit, hp, hpost⟩ :=
          ih hlt hd fun c hc => hne c (List.mem_cons_of_mem _ hc)
        exact ⟨a :: pre, p, post, by rw [hsplit]; rfl, hp, hpost⟩
      · have hgt : bp < d.addr := by
          have := hne d List.mem_cons_self
          omega
        refine ⟨[], a, d :: bs, rfl, ha, fun c hc => ?_⟩
        rcases List.mem_cons.mp hc with rfl | hc
        · exact hgt
        · exact Nat.lt_trans hgt (before_addr ((List.pairwise_cons.mp hd).1 c hc))

/-! ## A block comes back -/

theorem setPtr_self (a v : Nat) : setPtr mem a v a = { mem a with ptr := v } :=
  Function.update_self ..

theorem setPtr_of_ne (h : x ≠ a) (v : Nat) : setPtr mem a v x = mem x :=
  Function.update_of_ne h ..

theorem setSize_self (a v : Nat) : setSize mem a v a = { mem a with size := v % UINT } :=
  Function.update_self ..

theorem setSize_of_ne (h : x ≠ a) (v : Nat) : setSize mem a v x = mem x :=
  Function.update_of_ne h ..

/-- Where a block comes back: after `p` and before `post`. -/
structure Gap (base : Nat) (mem : Nat → Header) (bs pre : List Block) (p : Block)
    (post : List Block) (b : Block) : Prop where
  split : ring base bs = pre ++ p :: post
  size : (mem b.addr).size = b.size
  pos : 0 < b.size
  lt : p.addr < b.addr
  prev : p.stop ≤ b.addr
  next : ∀ c ∈ post, b.stop ≤ c.addr
  sum : b.size + (bs.map Block.size).sum < UINT

section Gap

variable {pre post : List Block} {p : Block}

theorem Gap.pairwise (g : Gap base mem bs pre p post b) (h : FreeList base mem freep bs) :
    pre.Pairwise Block.Before ∧ post.Pairwise Block.Before ∧ (∀ a ∈ pre, a.Before p) ∧
      (∀ c ∈ post, p.Before c) ∧ ∀ a ∈ pre, ∀ c ∈ post, a.Before c := by
  have hapart := h.apart
  rw [g.split] at hapart
  obtain ⟨h1, h2, h3⟩ := List.pairwise_append.mp hapart
  obtain ⟨h4, h5⟩ := List.pairwise_cons.mp h2
  exact ⟨h1, h5, fun a ha => h3 a ha p List.mem_cons_self, h4,
    fun a ha c hc => h3 a ha c (List.mem_cons_of_mem _ hc)⟩

/-- The block has no header of the list. -/
theorem Gap.addr_ne (g : Gap base mem bs pre p post b) (h : FreeList base mem freep bs) :
    ∀ x ∈ (post ++ pre).map Block.addr, x ≠ b.addr ∧ x ≠ p.addr := by
  obtain ⟨-, -, hpre, hpost, -⟩ := g.pairwise h
  intro x hx
  obtain ⟨c, hc, rfl⟩ := List.mem_map.mp hx
  have hlt := g.lt
  rcases List.mem_append.mp hc with hc | hc
  · have h1 := before_addr (hpost c hc)
    have h2 := g.next c hc
    have h3 := b.addr_lt_stop g.pos
    omega
  · have h1 := before_addr (hpre c hc)
    omega

theorem Gap.sizes (g : Gap base mem bs pre p post b) :
    b.size + ((pre.map Block.size).sum + (p.size + (post.map Block.size).sum)) < UINT := by
  have h1 := g.sum
  have h2 : ((ring base bs).map Block.size).sum = (bs.map Block.size).sum := by
    simp [ring]
  rw [g.split, List.map_append, List.map_cons, List.sum_append, List.sum_cons] at h2
  omega

theorem Gap.next_linked (g : Gap base mem bs pre p post b) (h : FreeList base mem freep bs) :
    ∃ size post', join b post = ⟨b.addr, size⟩ :: post' ∧
      (linkNext mem b.addr p.addr b.addr).size = size ∧
      Path (link (linkNext mem b.addr p.addr)) b.addr ((post' ++ pre).map Block.addr) p.addr ∧
      ∀ x, x ≠ b.addr → linkNext mem b.addr p.addr x = mem x := by
  have hpath := (path_ring g.split).mp h.links
  have hne := g.addr_ne h
  have hbase : base ≤ p.addr := h.base_le (by rw [g.split]; simp)
  have hlt := g.lt
  unfold linkNext
  cases post with
  | nil =>
      have hlink : (mem p.addr).ptr = base := h.link_last g.split
      have hno : ¬ b.addr + UNIT * (mem b.addr).size = (mem p.addr).ptr := by
        rw [hlink]
        omega
      rw [if_neg hno]
      refine ⟨b.size, [], rfl, ?_, ?_, fun x hx => setPtr_of_ne hx _⟩
      · rw [setPtr_self]
        exact g.size
      · refine hpath.from ?_ fun x hx => ?_
        · rw [link, setPtr_self]
          rfl
        · rw [link, setPtr_of_ne (hne x hx).1]
          rfl
  | cons q post =>
      have hlink : (mem p.addr).ptr = q.addr := h.link_cons g.split
      rw [hlink, g.size]
      have hqb : q.addr ≠ b.addr := (hne q.addr (by simp)).1
      split
      · rename_i htouch
        change b.stop = q.addr at htouch
        have hj : join b (q :: post) = ⟨b.addr, b.size + q.size⟩ :: post := by
          rw [join, if_pos htouch]
        have hqs : (mem q.addr).size = q.size := h.sizes q (by rw [g.split]; simp)
        have hsum : b.size + q.size < UINT := by
          have hs := g.sizes
          rw [List.map_cons, List.sum_cons] at hs
          omega
        refine ⟨_, _, hj, ?_, ?_, fun x hx => ?_⟩
        · rw [setPtr_self, setSize_self, hqs]
          exact Nat.mod_eq_of_lt hsum
        · cases hpath with
          | step _ hpath =>
              refine hpath.from ?_ fun x hx => ?_
              · rw [link, setPtr_self]
                show (setSize mem b.addr _ (setSize mem b.addr _ p.addr).ptr).ptr = _
                rw [setSize_of_ne (Nat.ne_of_lt hlt), hlink, setSize_of_ne hqb]
                rfl
              · have hxb := (hne x (List.mem_cons_of_mem _ hx)).1
                rw [link, setPtr_of_ne hxb, setSize_of_ne hxb]
                rfl
        · rw [setPtr_of_ne hx, setSize_of_ne hx]
      · rename_i htouch
        change ¬ b.stop = q.addr at htouch
        have hj : join b (q :: post) = b :: q :: post := by
          rw [join, if_neg htouch]
        refine ⟨_, _, hj, ?_, ?_, fun x hx => setPtr_of_ne hx _⟩
        · rw [setPtr_self]
          exact g.size
        · refine hpath.from ?_ fun x hx => ?_
          · rw [link, setPtr_self]
            exact hlink.symm
          · rw [link, setPtr_of_ne (hne x hx).1]
            rfl

/-- The memory after `free` around `p`: where `p` and `post` were there is
`join p (join b post)`. -/
theorem Gap.prev_linked (g : Gap base mem bs pre p post b) (h : FreeList base mem freep bs) :
    ∃ size post', join p (join b post) = ⟨p.addr, size⟩ :: post' ∧
      Path (link (linkPrev (linkNext mem b.addr p.addr) b.addr p.addr)) p.addr
        ((post' ++ pre).map Block.addr) p.addr ∧
      (∀ c ∈ join p (join b post),
        (linkPrev (linkNext mem b.addr p.addr) b.addr p.addr c.addr).size = c.size) ∧
      ∀ x, x ≠ b.addr → x ≠ p.addr →
        linkPrev (linkNext mem b.addr p.addr) b.addr p.addr x = mem x := by
  obtain ⟨size, post', hj, hsize, hpath, hframe⟩ := g.next_linked h
  have hne := g.addr_ne h
  have hpb : p.addr ≠ b.addr := Nat.ne_of_lt g.lt
  have hpsize : (mem p.addr).size = p.size := h.sizes p (by rw [g.split]; simp)
  have hpost' : ∀ c ∈ post', c ∈ post := by
    obtain ⟨size', post'', hj', -, hsub⟩ := join_eq b post
    rw [hj] at hj'
    cases hj'
    exact hsub
  have hsum : p.size + size < UINT := by
    have hs := g.sizes
    have hs' := sum_join b post
    rw [hj, List.map_cons, List.sum_cons] at hs'
    simp only at hs'
    omega
  -- the blocks after `b` keep their headers
  have hrest : ∀ c ∈ post', c.addr ≠ b.addr ∧ c.addr ≠ p.addr := fun c hc =>
    hne _ (List.mem_map_of_mem (List.mem_append_left _ (hpost' c hc)))
  have hrestsize : ∀ c ∈ post', (mem c.addr).size = c.size := fun c hc =>
    h.sizes c (by rw [g.split]; exact List.mem_append_right _ (List.mem_cons_of_mem _ (hpost' c hc)))
  generalize linkNext mem b.addr p.addr = mem₁ at hsize hpath hframe ⊢
  have hother : ∀ x ∈ (post' ++ pre).map Block.addr, x ≠ p.addr := by
    intro x hx
    obtain ⟨c, hc, rfl⟩ := List.mem_map.mp hx
    rcases List.mem_append.mp hc with hc | hc
    · exact (hrest c hc).2
    · exact (hne _ (List.mem_map_of_mem (List.mem_append_right _ hc))).2
  unfold linkPrev
  rw [hframe _ hpb, hpsize, hj]
  split
  · rename_i htouch
    change p.stop = b.addr at htouch
    have hjp : join p (⟨b.addr, size⟩ :: post') = ⟨p.addr, p.size + size⟩ :: post' := by
      rw [join, if_pos htouch]
    refine ⟨_, _, hjp, ?_, fun c hc => ?_, fun x hxb hxp => ?_⟩
    · refine hpath.from ?_ fun x hx => ?_
      · rw [link, setPtr_self]
        show (setSize mem₁ p.addr _ b.addr).ptr = _
        rw [setSize_of_ne hpb.symm]
        rfl
      · rw [link, setPtr_of_ne (hother x hx), setSize_of_ne (hother x hx)]
        rfl
    · rw [hjp] at hc
      rcases List.mem_cons.mp hc with rfl | hc
      · rw [setPtr_self, setSize_self, hsize]
        exact Nat.mod_eq_of_lt hsum
      · rw [setPtr_of_ne (hrest c hc).2, setSize_of_ne (hrest c hc).2, hframe _ (hrest c hc).1]
        exact hrestsize c hc
    · rw [setPtr_of_ne hxp, setSize_of_ne hxp, hframe x hxb]
  · rename_i htouch
    change ¬ p.stop = b.addr at htouch
    have hjp : join p (⟨b.addr, size⟩ :: post') = p :: ⟨b.addr, size⟩ :: post' := by
      rw [join, if_neg htouch]
    refine ⟨_, _, hjp, ?_, fun c hc => ?_, fun x hxb hxp => ?_⟩
    · refine .step (by rw [link, setPtr_self]) (hpath.from ?_ fun x hx => ?_)
      · rw [link, setPtr_of_ne hpb.symm]
        rfl
      · rw [link, setPtr_of_ne (hother x hx)]
        rfl
    · rw [hjp] at hc
      rcases List.mem_cons.mp hc with rfl | hc
      · rw [setPtr_self]
        show (mem₁ c.addr).size = c.size
        rw [hframe _ hpb]
        exact hpsize
      · rcases List.mem_cons.mp hc with rfl | hc
        · rw [setPtr_of_ne hpb.symm]
          exact hsize
        · rw [setPtr_of_ne (hrest c hc).2, hframe _ (hrest c hc).1]
          exact hrestsize c hc
    · rw [setPtr_of_ne hxp, hframe x hxb]

theorem Gap.apart (g : Gap base mem bs pre p post b) (h : FreeList base mem freep bs) :
    (pre ++ join p (join b post)).Pairwise Block.Before := by
  obtain ⟨hpre, hpost, hprep, hppost, hcross⟩ := g.pairwise h
  have hb : ∀ a ∈ pre, a.Before b := fun a ha => Nat.lt_trans (hprep a ha) g.lt
  refine List.pairwise_append.mpr ⟨hpre, pairwise_join (pairwise_join hpost g.next) ?_, ?_⟩
  · exact stop_join_le g.prev fun c hc => Nat.le_of_lt (hppost c hc)
  · exact fun a ha => before_join (hprep a ha) (before_join (hb a ha) (hcross a ha))

/-- The list after `free`. -/
theorem Gap.insert (g : Gap base mem bs pre p post b) (h : FreeList base mem freep bs) :
    ∃ bs', ring base bs' = pre ++ join p (join b post) ∧
      FreeList base (linkPrev (linkNext mem b.addr p.addr) b.addr p.addr) p.addr bs' := by
  obtain ⟨size, post', hj, hpath, hsizes, hframe⟩ := g.prev_linked h
  have hapart := g.apart h
  have hne := g.addr_ne h
  -- `base` stays the first block
  have hring : ∃ bs', ring base bs' = pre ++ join p (join b post) ∧ ∀ c ∈ bs', 0 < c.size := by
    have hsplit := g.split
    cases pre with
    | nil =>
        obtain ⟨rfl, rfl⟩ : ⟨base, 0⟩ = p ∧ bs = post := List.cons.inj hsplit
        refine ⟨join b bs, ?_, pos_join g.pos h.pos⟩
        obtain ⟨size', post'', hj', -, -⟩ := join_eq b bs
        have hno : ¬ (⟨base, 0⟩ : Block).stop = b.addr := Nat.ne_of_lt g.lt
        rw [hj', join, if_neg hno]
        rfl
    | cons a pre =>
        obtain ⟨rfl, rfl⟩ : ⟨base, 0⟩ = a ∧ bs = pre ++ p :: post := List.cons.inj hsplit
        refine ⟨pre ++ join p (join b post), rfl, fun c hc => ?_⟩
        rcases List.mem_append.mp hc with hc | hc
        · exact h.pos c (List.mem_append_left _ hc)
        · refine pos_join (h.pos p (by simp)) (pos_join g.pos fun d hd => ?_) c hc
          exact h.pos d (List.mem_append_right _ (List.mem_cons_of_mem _ hd))
  obtain ⟨bs', hring, hpos⟩ := hring
  refine ⟨bs', hring, ?_, fun c hc => ?_, hpos, hring ▸ hapart, ?_⟩
  · rw [hj] at hring
    exact (path_ring hring).mpr hpath
  · rw [hring] at hc
    rcases List.mem_append.mp hc with hc | hc
    · obtain ⟨hcb, hcp⟩ := hne c.addr (List.mem_map_of_mem (List.mem_append_right _ hc))
      rw [hframe _ hcb hcp]
      exact h.sizes c (by rw [g.split]; exact List.mem_append_left _ hc)
    · exact hsizes c hc
  · rw [hring, hj]
    simp

end Gap

end FreeList

end Xv6.Malloc
