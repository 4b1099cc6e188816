import Xv6.Lib.RefCount
import Xv6.Bio.Cache

/-!
# The list, the blocks and the order of the buffers

However `bread`, `brelse`, `bpin` and `bunpin` interleave, the links form one
circle of all buffers, no block is cached twice, `refcnt` counts the references, and
the unused buffers stand in the order of their last release.
-/

namespace Xv6.Bio

open Circular RefCount

/-! ## Links -/

/-- The buffers `l` in their order after the head. -/
def Links.Order (k : Links) (l : List (Fin NBUF)) : Prop :=
  Circle k.next k.prev .head (l.map .buf)

variable {k : Links} {l r : List (Fin NBUF)} {b : Fin NBUF}

theorem Links.Order.unlink (h : k.Order (l ++ b :: r)) : (k.unlink b).Order (l ++ r) := by
  unfold Links.Order at h ⊢
  rw [List.map_append, List.map_cons] at h
  have hne : Node.buf b ≠ k.next (.buf b) := Ne.symm h.next_ne
  simp only [Links.unlink]
  rw [Function.update_of_ne hne, List.map_append]
  exact h.unlink

theorem Links.Order.linkFirst (h : k.Order l) (hb : b ∉ l) : (k.linkFirst b).Order (b :: l) := by
  have hx : Node.buf b ∉ .head :: l.map .buf := by simpa using hb
  unfold Links.Order at h ⊢
  simp only [Links.linkFirst]
  rw [Function.update_of_ne (nofun : Node.head ≠ .buf b)]
  exact h.link hx

theorem Links.Order.nodup (h : k.Order l) : l.Nodup := (Circle.nodup h).of_cons.of_map _

/-- `brelse` moves a buffer to the front. -/
theorem Links.Order.toFront (h : k.Order (l ++ b :: r)) :
    ((k.unlink b).linkFirst b).Order (b :: (l ++ r)) := by
  refine h.unlink.linkFirst ?_
  have hn := h.nodup
  rw [List.nodup_middle, List.nodup_cons] at hn
  exact hn.1

theorem Links.Order.fold : ∀ (bs : List (Fin NBUF)) {k : Links} {l : List (Fin NBUF)},
    k.Order l → (bs ++ l).Nodup → (bs.foldl Links.linkFirst k).Order (bs.reverse ++ l)
  | [], _, _, h, _ => h
  | b :: bs, k, l, h, hn => by
      rw [List.cons_append, List.nodup_cons] at hn
      have h' := h.linkFirst (b := b) fun hb => hn.1 (List.mem_append_right _ hb)
      have hn' : (bs ++ b :: l).Nodup := by
        rw [List.nodup_middle, List.nodup_cons]
        exact hn
      rw [List.reverse_cons, List.append_assoc]
      exact Links.Order.fold bs h' hn'

/-- `binit` makes a list of all buffers, the last one first. -/
theorem binit_order : binit.Order (List.finRange NBUF).reverse := by
  have h0 : Links.Order ⟨fun _ => .head, fun _ => .head⟩ [] :=
    ⟨.nil rfl rfl, List.nodup_singleton _⟩
  have h := h0.fold (List.finRange NBUF) (by simpa using List.nodup_finRange NBUF)
  simpa [binit] using h

/-- A loop over the list ends with the first buffer that passes the test. -/
theorem find_test (f : Fin NBUF → Bool) (l : List (Fin NBUF)) :
    (l.map Node.buf).find? (Node.test f) = (l.find? f).map .buf := by
  rw [List.find?_map]
  rfl

theorem Links.Order.scan_next (h : k.Order l) (f : Fin NBUF → Bool) (hl : l.length ≤ NBUF) :
    scan k.next .head (Node.test f) (NBUF + 1) (k.next .head) = some ((l.find? f).map .buf) := by
  rw [h.segment.scan_eq h.notMem (by simpa using Nat.lt_succ_of_le hl), find_test]

theorem Links.Order.scan_prev (h : k.Order l) (f : Fin NBUF → Bool) (hl : l.length ≤ NBUF) :
    scan k.prev .head (Node.test f) (NBUF + 1) (k.prev .head) =
      some ((l.reverse.find? f).map .buf) := by
  rw [h.segment.reverse.scan_eq (by simp) (by simpa using Nat.lt_succ_of_le hl),
    ← List.map_reverse, find_test]

/-! ## The invariant -/

/-- The reference that a process has outside the sleep-locks. -/
def Pc.ref : Pc → Option (Fin NBUF)
  | .acquire b => some b
  | .release b => some b
  | _ => none

section

variable {n : Nat} {s s' : State n} {p : Fin n} {x : Pc} {v : Buf} {a : Act n}

/-- Block numbers are used for one buffer only. -/
def OneBuffer (s : State n) : Prop :=
  ∀ b b', (s.buf b).dev ≠ 0 → (s.buf b').dev = (s.buf b).dev →
    (s.buf b').blockno = (s.buf b).blockno → b' = b

/-- The references of processes on their way to the lock or from it. -/
def State.users (s : State n) : Fin NBUF → Nat := refs fun p => (s.pc p).ref

/-- The reference of the holder of the lock. -/
def State.holder (s : State n) (b : Fin NBUF) : Nat := (s.lock b).elim 0 fun _ => 1

/-- `refcnt` counts the pins, the holder of the lock and the processes on their way. -/
def Counted (s : State n) : Prop := ∀ b, (s.buf b).refcnt = s.pins b + s.holder b + s.users b

/-- The unused buffers of a list stand in the order of their release, last first. -/
def Sorted (s : State n) (l : List (Fin NBUF)) : Prop :=
  l.Pairwise fun b b' => (s.buf b).refcnt = 0 → (s.buf b').refcnt = 0 →
    s.released b' < s.released b

structure Inv (s : State n) : Prop where
  list : ∃ l, s.links.Order l ∧ (∀ b, b ∈ l) ∧ Sorted s l
  one : OneBuffer s
  counted : Counted s
  past : ∀ b, s.released b < s.clock

theorem Inv.init (n : Nat) (disk : Disk) : Inv (init n disk) where
  list := by
    refine ⟨_, binit_order, fun b => by simp, ?_⟩
    refine List.pairwise_reverse.2 ?_
    have hlt := List.pairwise_lt_finRange NBUF
    exact hlt.imp fun h _ _ => h
  one := fun b b' h => absurd rfl h
  counted := by
    intro b
    have h0 : (Bio.init n disk).users b = 0 := refs_eq_zero.2 fun _ => nofun
    rw [h0]
    rfl
  past := fun b => b.isLt

/-! ### `bget` -/

theorem Links.Order.length_le (h : k.Order l) : l.length ≤ NBUF := by
  simpa using List.Nodup.length_le_card h.nodup

/-- What `bget` finds. -/
theorem bget_eq (h : s.links.Order l) (dev blockno : Nat) :
    s.bget dev blockno = some
      (match l.find? fun b => (s.buf b).dev = dev ∧ (s.buf b).blockno = blockno with
      | some b => .cached b
      | none => match l.reverse.find? fun b => (s.buf b).refcnt = 0 with
        | some b => .recycle b
        | none => .noBuffers) := by
  have hl := h.length_le
  unfold State.bget
  simp only
  rw [h.scan_next _ hl, h.scan_prev _ hl, Option.bind_some]
  cases l.find? fun b => (s.buf b).dev = dev ∧ (s.buf b).blockno = blockno with
  | some b => rfl
  | none =>
      cases l.reverse.find? fun b => (s.buf b).refcnt = 0 with
      | some b => rfl
      | none => rfl

/-- The block is not cached, and the buffer is the one unused for the longest time. -/
theorem Inv.bget_recycle (h : Inv s) {dev blockno : Nat}
    (hg : s.bget dev blockno = some (.recycle b)) :
    (∀ b', (s.buf b').dev = dev → (s.buf b').blockno ≠ blockno) ∧ (s.buf b).refcnt = 0 ∧
      ∀ b', b' ≠ b → (s.buf b').refcnt = 0 → s.released b < s.released b' := by
  obtain ⟨l, hl, hall, hsort⟩ := h.list
  rw [bget_eq hl] at hg
  cases hc : l.find? fun b => (s.buf b).dev = dev ∧ (s.buf b).blockno = blockno with
  | some b' =>
      rw [hc] at hg
      cases hg
  | none =>
      cases hr : l.reverse.find? fun b => (s.buf b).refcnt = 0 with
      | none =>
          rw [hc, hr] at hg
          cases hg
      | some b' =>
          rw [hc, hr] at hg
          cases hg
          rw [List.find?_eq_none] at hc
          rw [List.find?_eq_some_iff_append] at hr
          obtain ⟨h0, as, bs, heq, has⟩ := hr
          refine ⟨fun b' hd hb => ?_, by simpa using h0, fun b' hne hb => ?_⟩
          · exact hc b' (hall b') (by simp [hd, hb])
          · -- `b'` is not among the buffers passed over, so it is nearer to the head
            have hmem : b' ∈ as ++ b :: bs := by
              rw [← heq]
              exact List.mem_reverse.2 (hall b')
            rw [List.mem_append, List.mem_cons] at hmem
            have hs : (as ++ b :: bs).Pairwise fun x y =>
                (s.buf y).refcnt = 0 → (s.buf x).refcnt = 0 → s.released x < s.released y := by
              rw [← heq]
              exact List.pairwise_reverse.2 hsort
            rw [List.pairwise_append, List.pairwise_cons] at hs
            rcases hmem with hm | rfl | hm
            · exact absurd hb (by simpa using has b' hm)
            · exact absurd rfl hne
            · exact hs.2.1.1 b' hm hb (by simpa using h0)

/-! ### Counting -/

theorem ref_goto (s : State n) (p : Fin n) (x : Pc) :
    (fun q => ((s.goto p x).pc q).ref) = Function.update (fun q => (s.pc q).ref) p x.ref := by
  funext q
  by_cases hq : q = p
  · subst hq
    simp [State.goto]
  · simp [State.goto, Function.update_of_ne hq]

/-- A process sets out for a lock, or from it. -/
theorem users_put (h : (s.pc p).ref = none) (hx : x.ref = some b) :
    (s.goto p x).users = plus s.users b := by
  rw [State.users, ref_goto, hx, refs_put (o := fun q => (s.pc q).ref) h, State.users]

theorem users_take (h : (s.pc p).ref = some b) (hx : x.ref = none) :
    s.users = plus (s.goto p x).users b := by
  rw [State.users, State.users, ref_goto, hx, refs_take (o := fun q => (s.pc q).ref) h]

theorem users_goto (h : (s.pc p).ref = none) (hx : x.ref = none) :
    (s.goto p x).users = s.users := by
  rw [State.users, ref_goto, hx, ← h, Function.update_eq_self, State.users]

/-- Compare the counts of one buffer; those of the others do not change. -/
theorem Counted.of_eq (h : Counted s) (b : Fin NBUF)
    (hne : ∀ b', b' ≠ b → (s'.buf b').refcnt = (s.buf b').refcnt ∧ s'.pins b' = s.pins b' ∧
      s'.lock b' = s.lock b' ∧ s'.users b' = s.users b')
    (hb : (s'.buf b).refcnt = s'.pins b + s'.holder b + s'.users b) :
    Counted s' := by
  intro b'
  by_cases he : b' = b
  · rw [he]
    exact hb
  · obtain ⟨h1, h2, h3, h4⟩ := hne b' he
    rw [h1, h2, State.holder, h3, h4]
    exact h b'

/-! ### Steps -/

/-- A field that the update of a buffer does not change. -/
theorem update_field {γ : Type} (f : Buf → γ) (hs : s'.buf = Function.update s.buf b v)
    (h : f v = f (s.buf b)) (b' : Fin NBUF) : f (s'.buf b') = f (s.buf b') := by
  rw [hs]
  by_cases hb : b' = b
  · rw [hb, Function.update_self, h]
  · rw [Function.update_of_ne hb]

/-- A step that leaves the blocks of the buffers alone. -/
theorem OneBuffer.congr (h : OneBuffer s)
    (hbuf : ∀ b, (s'.buf b).dev = (s.buf b).dev ∧ (s'.buf b).blockno = (s.buf b).blockno) :
    OneBuffer s' := by
  intro x y h1 h2 h3
  rw [(hbuf x).1] at h1 h2
  rw [(hbuf y).1] at h2
  rw [(hbuf x).2, (hbuf y).2] at h3
  exact h x y h1 h2 h3

theorem OneBuffer.update (h : OneBuffer s) (hs : s'.buf = Function.update s.buf b v)
    (hd : v.dev = (s.buf b).dev) (hn : v.blockno = (s.buf b).blockno) : OneBuffer s' :=
  h.congr fun b' => ⟨update_field (·.dev) hs hd b', update_field (·.blockno) hs hn b'⟩

/-- The update of a buffer changes neither its block nor its counter. -/
theorem update_fields (hs : s'.buf = Function.update s.buf b v) (hd : v.dev = (s.buf b).dev)
    (hn : v.blockno = (s.buf b).blockno) (hr : v.refcnt = (s.buf b).refcnt) (b' : Fin NBUF) :
    (s'.buf b').dev = (s.buf b').dev ∧ (s'.buf b').blockno = (s.buf b').blockno ∧
      (s'.buf b').refcnt = (s.buf b').refcnt :=
  ⟨update_field (·.dev) hs hd b', update_field (·.blockno) hs hn b', update_field (·.refcnt) hs hr b'⟩

/-- A step that changes no link, block, counter or time. -/
theorem Inv.frame (h : Inv s) (hbuf : ∀ b, (s'.buf b).dev = (s.buf b).dev ∧
      (s'.buf b).blockno = (s.buf b).blockno ∧ (s'.buf b).refcnt = (s.buf b).refcnt)
    (hlinks : s'.links = s.links) (hrel : s'.released = s.released) (hclock : s'.clock = s.clock)
    (hcount : ∀ b, (s.buf b).refcnt = s'.pins b + s'.holder b + s'.users b) : Inv s' where
  list := by
    obtain ⟨l, hl, hall, hsort⟩ := h.list
    refine ⟨l, by rwa [hlinks], hall, hsort.imp fun {x y} hxy => ?_⟩
    rwa [(hbuf x).2.2, (hbuf y).2.2, hrel]
  one := h.one.congr fun b => ⟨(hbuf b).1, (hbuf b).2.1⟩
  counted := fun b => (hbuf b).2.2.trans (hcount b)
  past := fun b => by
    rw [hrel, hclock]
    exact h.past b

/-- A step after which the buffer `b` is in use, and the others are as before. -/
theorem Inv.used (h : Inv s) (b : Fin NBUF) (hlinks : s'.links = s.links)
    (hbuf : ∀ b', b' ≠ b → s'.buf b' = s.buf b')
    (hrel : ∀ b', b' ≠ b → s'.released b' = s.released b') (hb : (s'.buf b).refcnt ≠ 0)
    (hone : OneBuffer s') (hcount : Counted s') (hpast : ∀ b, s'.released b < s'.clock) :
    Inv s' := by
  obtain ⟨l, hl, hall, hsort⟩ := h.list
  refine ⟨⟨l, by rwa [hlinks], hall, hsort.imp fun {x y} hxy hx hy => ?_⟩, hone, hcount, hpast⟩
  have hxb : x ≠ b := fun he => hb (he ▸ hx)
  have hyb : y ≠ b := fun he => hb (he ▸ hy)
  rw [hbuf x hxb] at hx
  rw [hbuf y hyb] at hy
  rw [hrel x hxb, hrel y hyb]
  exact hxy hx hy

attribute [local simp] State.setBuf State.goto State.setLock State.ref State.unref State.recycle
  State.toFront State.stamp State.setPins Pc.ref

/-- The times after a release. -/
theorem past_stamp (h : ∀ b, s.released b < s.clock) (b b' : Fin NBUF) :
    (s.stamp b).released b' < (s.stamp b).clock := by
  by_cases hb : b' = b
  · simp [hb]
  · have := h b'
    simp only [State.stamp, Function.update_of_ne hb]
    omega

/-- The counts after the section of `brelse`. -/
theorem Counted.release (h : Counted s) (hpc : s.pc p = .release b) :
    Counted (((s.unref b).goto p .idle).stamp b) ∧
      (s.buf b).refcnt = (((s.unref b).goto p .idle).buf b).refcnt + 1 := by
  have hu : s.users = plus (s.goto p .idle).users b := users_take (by rw [hpc]; rfl) rfl
  have hc : (s.buf b).refcnt = s.pins b + s.holder b + ((s.goto p .idle).users b + 1) := by
    rw [← plus_self, ← hu]
    exact h b
  have hr : (((s.unref b).goto p .idle).buf b).refcnt = (s.buf b).refcnt - 1 := by simp
  refine ⟨h.of_eq b (fun b' hb => ⟨by simp [hb], rfl, rfl, ?_⟩) ?_, ?_⟩
  · rw [hu, plus_of_ne hb]
    rfl
  · refine hr.trans ?_
    rw [hc]
    rfl
  · omega

/-- A buffer is released and moved to the front. -/
theorem Inv.toFront (h : Inv s) (hpc : s.pc p = .release b) :
    Inv ((((s.unref b).goto p .idle).stamp b).toFront b) := by
  obtain ⟨l, hl, hall, hsort⟩ := h.list
  obtain ⟨l₁, l₂, rfl⟩ := List.append_of_mem (hall b)
  refine ⟨⟨b :: (l₁ ++ l₂), hl.toFront, fun b' => ?_, ?_⟩, ?_, (h.counted.release hpc).1, ?_⟩
  · have hm := hall b'
    simp only [List.mem_append, List.mem_cons] at hm ⊢
    tauto
  · have hn := hl.nodup
    rw [List.nodup_middle, List.nodup_cons] at hn
    have hsub : (l₁ ++ l₂).Sublist (l₁ ++ b :: l₂) :=
      List.Sublist.append_left (List.sublist_cons_self _ _) _
    refine List.pairwise_cons.2 ⟨fun b' hb' _ _ => ?_, ?_⟩
    · -- `b` now has the latest time
      have hne : b' ≠ b := fun he => hn.1 (he ▸ hb')
      simpa [hne] using h.past b'
    · refine (hsort.sublist hsub).imp_of_mem fun {x y} hx hy hxy => ?_
      have hxb : x ≠ b := fun he => hn.1 (he ▸ hx)
      have hyb : y ≠ b := fun he => hn.1 (he ▸ hy)
      simpa [hxb, hyb] using hxy
  · exact h.one.update rfl rfl rfl
  · exact fun b' => past_stamp h.past b b'

theorem Inv.step (h : Inv s) (hs : Step s a s') : Inv s' := by
  cases hs with
  | @cached p dev blockno b hpc hg =>
      have hu : (s.goto p (.acquire b)).users = plus s.users b := users_put (by rw [hpc]; rfl) rfl
      refine h.used b rfl (fun b' hb => by simp [hb]) (fun _ _ => rfl) (by simp) ?_ ?_ h.past
      · exact h.one.update rfl rfl rfl
      · refine h.counted.of_eq b (fun b' hb => ⟨by simp [hb], rfl, rfl, ?_⟩) ?_
        · exact (congrFun hu b').trans (plus_of_ne hb)
        · have hub : ((s.ref b).goto p (.acquire b)).users b = s.users b + 1 :=
            (congrFun hu b).trans plus_self
          have hr : (((s.ref b).goto p (.acquire b)).buf b).refcnt = (s.buf b).refcnt + 1 := by simp
          rw [hub, hr, h.counted b]
          rfl
  | @recycle p dev blockno b hpc hg =>
      obtain ⟨hnew, h0, -⟩ := h.bget_recycle hg
      have hu : (s.goto p (.acquire b)).users = plus s.users b := users_put (by rw [hpc]; rfl) rfl
      refine h.used b rfl (fun b' hb => by simp [hb]) (fun _ _ => rfl) (by simp) ?_ ?_ h.past
      · intro x y hx h1 h2
        by_cases hxb : x = b
        · by_cases hyb : y = b
          · rw [hxb, hyb]
          · simp only [State.recycle, State.goto, State.setBuf, hxb, Function.update_self,
              Function.update_of_ne hyb] at h1 h2
            exact absurd h2 (hnew y h1)
        · by_cases hyb : y = b
          · simp only [State.recycle, State.goto, State.setBuf, hyb, Function.update_self,
              Function.update_of_ne hxb] at h1 h2
            exact absurd h2.symm (hnew x h1.symm)
          · simp only [State.recycle, State.goto, State.setBuf, Function.update_of_ne hyb,
              Function.update_of_ne hxb] at hx h1 h2
            exact h.one x y hx h1 h2
      · refine h.counted.of_eq b (fun b' hb => ⟨by simp [hb], rfl, rfl, ?_⟩) ?_
        · exact (congrFun hu b').trans (plus_of_ne hb)
        · have hub : ((s.recycle b dev blockno).goto p (.acquire b)).users b = s.users b + 1 :=
            (congrFun hu b).trans plus_self
          have hr : (((s.recycle b dev blockno).goto p (.acquire b)).buf b).refcnt =
              (s.buf b).refcnt + 1 := by simp [h0]
          rw [hub, hr, h.counted b]
          rfl
  | panic => exact h.frame (fun _ => ⟨rfl, rfl, rfl⟩) rfl rfl rfl h.counted
  | @acquire p b hpc hlock =>
      have hu := users_take (b := b) (x := if (s.buf b).valid then .idle else .load b)
        (by rw [hpc]; rfl) (by split_ifs <;> rfl)
      suffices hc : Counted
          ((s.setLock b (some p)).goto p (if (s.buf b).valid then .idle else .load b)) from
        h.frame (fun _ => ⟨rfl, rfl, rfl⟩) rfl rfl rfl hc
      refine h.counted.of_eq b (fun b' hb => ⟨rfl, rfl, by simp [hb], ?_⟩) ?_
      · rw [hu, plus_of_ne hb]
        rfl
      · have hc := h.counted b
        rw [hu, plus_self, State.holder, hlock] at hc
        refine hc.trans ?_
        rw [State.holder]
        simp only [State.goto, State.setLock, Function.update_self, State.users, Option.elim]
        omega
  | @load p b hpc =>
      have hu : (s.goto p .idle).users = s.users := users_goto (by rw [hpc]; rfl) rfl
      refine h.frame (update_fields rfl rfl rfl rfl) rfl rfl rfl fun b' => (h.counted b').trans ?_
      rw [← hu]
      rfl
  | @modify p b data hlock => exact h.frame (update_fields rfl rfl rfl rfl) rfl rfl rfl h.counted
  | bwrite hlock => exact h.frame (fun _ => ⟨rfl, rfl, rfl⟩) rfl rfl rfl h.counted
  | @brelse p b hpc hlock =>
      have hu : (s.goto p (.release b)).users = plus s.users b := users_put (by rw [hpc]; rfl) rfl
      suffices hc : Counted ((s.setLock b none).goto p (.release b)) from
        h.frame (fun _ => ⟨rfl, rfl, rfl⟩) rfl rfl rfl hc
      refine h.counted.of_eq b (fun b' hb => ⟨rfl, rfl, by simp [hb], ?_⟩) ?_
      · exact (congrFun hu b').trans (plus_of_ne hb)
      · have hub : ((s.setLock b none).goto p (.release b)).users b = s.users b + 1 :=
          (congrFun hu b).trans plus_self
        have hc := h.counted b
        rw [State.holder, hlock] at hc
        rw [hub, State.holder]
        simp only [State.goto, State.setLock, Function.update_self, Option.elim] at hc ⊢
        omega
  | @release p b hpc h0 =>
      refine h.used b rfl (fun b' hb => by simp [hb]) (fun b' hb => by simp [hb]) (by simpa using h0)
        ?_ (h.counted.release hpc).1 fun b' => past_stamp h.past b b'
      exact h.one.update rfl rfl rfl
  | toFront hpc _ => exact h.toFront hpc
  | @bpin p b =>
      refine h.used b rfl (fun b' hb => by simp [hb]) (fun _ _ => rfl) (by simp) ?_ ?_ h.past
      · exact h.one.update rfl rfl rfl
      · refine h.counted.of_eq b (fun b' hb => ⟨by simp [hb], by simp [hb], rfl, rfl⟩) ?_
        have hr : (((s.ref b).setPins b (s.pins b + 1)).buf b).refcnt = (s.buf b).refcnt + 1 := by
          simp
        have hp : ((s.ref b).setPins b (s.pins b + 1)).pins b = s.pins b + 1 := by simp
        rw [hr, hp, h.counted b, Nat.add_right_comm, Nat.add_right_comm (s.pins b)]
        rfl
  | @bunpin p b hlock hpin =>
      have hc := h.counted b
      have hr : (((s.unref b).setPins b (s.pins b - 1)).buf b).refcnt = (s.buf b).refcnt - 1 := by
        simp
      have hh : s.holder b = 1 := by rw [State.holder, hlock]; rfl
      refine h.used b rfl (fun b' hb => by simp [hb]) (fun _ _ => rfl) ?_ ?_ ?_ h.past
      · omega
      · exact h.one.update rfl rfl rfl
      · refine h.counted.of_eq b (fun b' hb => ⟨by simp [hb], by simp [hb], rfl, rfl⟩) ?_
        have hp : ((s.unref b).setPins b (s.pins b - 1)).pins b = s.pins b - 1 := by simp
        have he : s.pins b + s.holder b + s.users b - 1 =
          s.pins b - 1 + s.holder b + s.users b := by omega
        rw [hr, hp, hc, he]
        rfl

/-! ## The main result -/

/-- The block that a buffer is for. -/
def State.ident (s : State n) (b : Fin NBUF) : Nat × Nat := ((s.buf b).dev, (s.buf b).blockno)

/-- Only recycling gives a buffer to another block. -/
theorem Step.ident_eq (hs : Step s a s') (hb : s'.ident b ≠ s.ident b) :
    ∃ dev blockno, s.bget dev blockno = some (.recycle b) := by
  have hsame : ∀ {c : Fin NBUF} {v : Buf}, s'.buf = Function.update s.buf c v →
      v.dev = (s.buf c).dev → v.blockno = (s.buf c).blockno → s'.ident b = s.ident b := by
    intro c v he hd hn
    exact Prod.ext (update_field (·.dev) he hd b) (update_field (·.blockno) he hn b)
  cases hs with
  | @recycle p dev blockno c _ hg =>
      by_cases hc : b = c
      · exact ⟨dev, blockno, hc ▸ hg⟩
      · exact absurd (by simp [State.ident, hc]) hb
  | panic => exact absurd rfl hb
  | acquire => exact absurd rfl hb
  | bwrite => exact absurd rfl hb
  | brelse => exact absurd rfl hb
  | cached => exact absurd (hsame rfl rfl rfl) hb
  | load => exact absurd (hsame rfl rfl rfl) hb
  | modify => exact absurd (hsame rfl rfl rfl) hb
  | release => exact absurd (hsame rfl rfl rfl) hb
  | toFront => exact absurd (hsame rfl rfl rfl) hb
  | bpin => exact absurd (hsame rfl rfl rfl) hb
  | bunpin => exact absurd (hsame rfl rfl rfl) hb

/-- The cache in every state of every run: the links are one circle of all buffers, no
block of the root device has two buffers, and a buffer that is given to another block
was unused, and for longer than all other unused buffers. -/
theorem bcache_structure {disk : Disk} {as : List (Act n)}
    (hr : Run.exec Bio.step (Bio.init n disk) as = some s) :
    (∃ l : List (Fin NBUF), (∀ b, b ∈ l) ∧
      Circle s.links.next s.links.prev .head (l.map .buf)) ∧
    (∀ b b', (s.buf b).dev = ROOTDEV → (s.buf b').dev = ROOTDEV →
      (s.buf b).blockno = (s.buf b').blockno → b = b') ∧
    ∀ a s' b, Bio.step s a = some s' → s'.ident b ≠ s.ident b → (s.buf b).refcnt = 0 ∧
      ∀ b', b' ≠ b → (s.buf b').refcnt = 0 → s.released b < s.released b' := by
  have h : Inv s :=
    Run.exec_invariant (fun _ _ _ h hs => h.step (step_cases hs)) (Inv.init n disk) hr
  refine ⟨?_, fun b b' hb hb' hn => ?_, fun a s' b hs hb => ?_⟩
  · obtain ⟨l, hl, hall, -⟩ := h.list
    exact ⟨l, hall, hl⟩
  · refine h.one b' b ?_ (by rw [hb, hb']) hn
    rw [hb']
    decide
  · obtain ⟨dev, blockno, hg⟩ := (step_cases hs).ident_eq hb
    exact (h.bget_recycle hg).2

end

instance : NeZero NBUF := ⟨by decide⟩

/-- A process reads a block and releases it. -/
def readOne : List (Act 1) := [.bread 0 ROOTDEV 5, .acquire 0, .load 0, .brelse 0 0, .release 0]

/-- The next block goes to the second buffer, which was not used yet. -/
theorem bcache_structure_readOne : ∃ s,
    Run.exec step (init 1 fun _ _ => 0) readOne = some s ∧
    ∃ s', step s (.bread 0 ROOTDEV 6) = some s' ∧ s'.ident 1 ≠ s.ident 1 ∧
      s.released 1 < s.released 0 := by
  obtain ⟨s, hr, h0, h1⟩ : ∃ s, Run.exec step (init 1 fun _ _ => 0) readOne = some s ∧
      (s.buf 0).refcnt = 0 ∧
      ((step s (.bread 0 ROOTDEV 6)).any fun s' => decide (s'.ident 1 ≠ s.ident 1)) = true :=
    Run.exists_exec_of_check (by decide +kernel)
  obtain ⟨s', hs, hne⟩ := (Option.any_eq_true _ _).1 h1
  have hb : s'.ident 1 ≠ s.ident 1 := of_decide_eq_true hne
  exact ⟨s, hr, s', hs, hb, ((bcache_structure hr).2.2 _ s' 1 hs hb).2 0 (by decide) h0⟩

end Xv6.Bio
