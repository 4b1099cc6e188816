import Xv6.Virtio.Protocol

/-!
# The steps of the driver and the device

Every step keeps the invariant.  So in every run the calls own their descriptors, a request is in
one place from its publication to its end, and a call returns only after the device is done.
-/

namespace Xv6.Virtio

open Gather

section

variable {n : Nat} {β : Type} {s s' : State n β} {p q : Fin n} {r r' : Req β} {k : Nat}
  {x : Pc β} {d : Drv β} {j : Job}

/-! ## Changes of the processes alone -/

/-- Processes are woken. -/
theorem Inv.like {pc : Fin n → Pc β} (h : Inv s) (hl : ∀ p, (pc p).Like (s.pc p)) :
    Inv { s with pc := pc } := by
  have hdescs : (fun p => (pc p).descs) = fun p => (s.pc p).descs := by
    funext p
    rw [Pc.descs, (hl p).req, Pc.descs]
  have hactive : active s.buf pc = active s.buf s.pc := by
    funext p
    rw [active, (hl p).job, active]
  refine ⟨h.ok, fun p q b hp hq => ?_, fun p hp => ?_, ?_, ?_, fun p r hp => ?_, fun p r hp => ?_,
    fun p r hp => ?_, h.avail, h.used, h.serials, h.once, ?_, fun p r k hp => ?_, h.status,
    h.returned, h.entry⟩
  · rw [(hl p).buf] at hp
    rw [(hl q).buf] at hq
    exact h.bufs p q b hp hq
  · exact h.holder p ((hl p).holds ▸ hp)
  · exact hdescs ▸ h.nodup
  · exact hdescs ▸ h.descs
  · exact h.chains p r ((hl p).req ▸ hp)
  · exact h.info p r ((hl p).req ▸ hp)
  · exact h.staged p r ((hl p).staged ▸ hp)
  · have hp := h.pending
    rw [← hactive] at hp
    exact hp
  · exact h.ended p r k ((hl p).job ▸ hp)

/-- Processes are woken, but for one that moves. -/
theorem like_update {f g : Fin n → Pc β} (hl : ∀ q, (f q).Like (g q)) (p : Fin n) (x : Pc β)
    (q : Fin n) : (Function.update f p x q).Like (Function.update g p x q) := by
  by_cases hq : q = p
  · rw [hq, Function.update_self, Function.update_self]
    exact .refl x
  · rw [Function.update_of_ne hq, Function.update_of_ne hq]
    exact hl q

/-- A field of the processes that the move of one does not change. -/
theorem update_eq {γ : Type} (f : Pc β → γ) (h : f x = f (s.pc p)) (q : Fin n) :
    f (Function.update s.pc p x q) = f (s.pc q) := by
  by_cases hq : q = p
  · rw [hq, Function.update_self, h]
  · rw [Function.update_of_ne hq]

/-- A field of the processes after the move of one. -/
theorem update_cases {γ : Type} {y : γ} (f : Pc β → γ) (h : f (Function.update s.pc p x q) = y) :
    q = p ∧ f x = y ∨ q ≠ p ∧ f (s.pc q) = y := by
  by_cases hq : q = p
  · rw [hq, Function.update_self] at h
    exact .inl ⟨hq, h⟩
  · rw [Function.update_of_ne hq] at h
    exact .inr ⟨hq, h⟩

/-- The buffers of the calls after the move of one process. -/
theorem bufs_update (h : ∀ p q b, (s.pc p).buf = some b → (s.pc q).buf = some b → p = q)
    (hx : ∀ q b, x.buf = some b → (s.pc q).buf = some b → q = p) (a b : Fin n) (c : β)
    (ha : (Function.update s.pc p x a).buf = some c)
    (hb : (Function.update s.pc p x b).buf = some c) : a = b := by
  rcases update_cases Pc.buf ha with ⟨rfl, hy⟩ | ⟨hap, hz⟩
  · rcases update_cases Pc.buf hb with ⟨hbp, -⟩ | ⟨hbp, hb⟩
    · exact hbp.symm
    · exact absurd (hx b c hy hb) hbp
  · rcases update_cases Pc.buf hb with ⟨rfl, hy⟩ | ⟨-, hb⟩
    · exact absurd (hx a c hy hz) hap
    · exact h a b c hz hb

/-- A process moves, and the lock changes hands. -/
theorem Inv.moved {lock : Option (Holder n)} {entry : Bool} (h : Inv s)
    (hreq : x.req = (s.pc p).req) (hjob : x.job = (s.pc p).job)
    (hstaged : x.staged = (s.pc p).staged)
    (hbuf : ∀ q b, x.buf = some b → (s.pc q).buf = some b → q = p)
    (hl : x.holds = true → lock = some (.proc p))
    (hl' : ∀ q, q ≠ p → (s.pc q).holds = true → lock = some (.proc q))
    (he : lock = some .intr → entry = true → s.drv.usedIdx ≠ s.drv.used.idx) :
    Inv { s.goto p x with lock := lock, entry := entry } := by
  have hdescs : (fun q => (Function.update s.pc p x q).descs) = fun q => (s.pc q).descs :=
    funext (update_eq Pc.descs (by rw [Pc.descs, hreq, Pc.descs]))
  have hactive : active s.buf (Function.update s.pc p x) = active s.buf s.pc := by
    funext q
    rw [active, update_eq Pc.job hjob q, active]
  refine ⟨h.ok, bufs_update h.bufs hbuf, fun q hq => ?_, ?_, ?_, fun q r hq => ?_,
    fun q r hq => ?_, fun q r hq => ?_, h.avail, h.used, h.serials, h.once, ?_,
    fun q r k hq => ?_, h.status, h.returned, he⟩
  · rcases update_cases Pc.holds hq with ⟨rfl, hy⟩ | ⟨hqp, hq⟩
    · exact hl hy
    · exact hl' q hqp hq
  · exact hdescs ▸ h.nodup
  · exact hdescs ▸ h.descs
  · exact h.chains q r ((update_eq Pc.req hreq q).symm.trans hq)
  · exact h.info q r ((update_eq Pc.req hreq q).symm.trans hq)
  · exact h.staged q r ((update_eq Pc.staged hstaged q).symm.trans hq)
  · have hp := h.pending
    rw [← hactive] at hp
    exact hp
  · exact h.ended q r k ((update_eq Pc.job hjob q).symm.trans hq)

/-- A process goes on in its call. -/
theorem Inv.turn {lock : Option (Holder n)} {entry : Bool} {y : Pc β} (h : Inv s)
    (hpc : s.pc p = y) (hreq : x.req = y.req) (hjob : x.job = y.job) (hstaged : x.staged = y.staged)
    (hbuf : x.buf = y.buf) (hl : x.holds = true → lock = some (.proc p))
    (hl' : ∀ q, q ≠ p → (s.pc q).holds = true → lock = some (.proc q))
    (he : lock = some .intr → entry = true → s.drv.usedIdx ≠ s.drv.used.idx) :
    Inv { s.goto p x with lock := lock, entry := entry } := by
  subst hpc
  exact h.moved hreq hjob hstaged (fun q b hx hq => h.bufs q p b hq (hbuf ▸ hx)) hl hl' he

/-- No other process has the lock. -/
theorem Inv.alone (h : Inv s) (hp : (s.pc p).holds = true) (hqp : q ≠ p) :
    (s.pc q).holds = false := by
  by_contra hq
  have h1 := h.holder p hp
  rw [h.holder q (by simpa using hq)] at h1
  exact hqp (Holder.proc.inj (Option.some.inj h1))

/-! ## Descriptors -/

/-- Free descriptors have changed. -/
theorem Inv.same (h : Inv s) (hs : s.drv.Same d) : Inv { s with drv := d } := by
  refine ⟨h.ok, h.bufs, h.holder, h.nodup, fun i => ?_, fun p r hp => ?_, fun p r hp => ?_,
    fun p r hp => ?_, ?_, ?_, h.serials, h.once, h.pending, h.ended, fun j hj => ?_, h.returned,
    fun hl he => ?_⟩
  · rw [h.descs i]
    refine and_congr_right fun hi => ?_
    rw [← hs.free i hi]
  · refine (h.chains p r hp).congr fun i hi => hs.desc i ?_
    rw [← descs_of_req hp] at hi
    exact ((h.descs i).1 (mem_gather.2 ⟨p, hi⟩)).2
  · show (d.info r.i0).b = _
    rw [hs.info]
    exact h.info p r hp
  · show _ ∧ d.avail.ring (d.avail.idx % NUM) = r.i0
    rw [hs.avail]
    exact h.staged p r hp
  · show Ring.Holds _ _ d.avail.ring _ d.avail.idx _ _
    rw [hs.avail]
    exact h.avail
  · show Ring.Holds _ _ d.used.ring d.usedIdx d.used.idx _ _
    rw [hs.used, hs.usedIdx]
    exact h.used
  · show (d.info j.head).status = 0
    rw [hs.info]
    exact h.status j hj
  · show d.usedIdx ≠ d.used.idx
    rw [hs.used, hs.usedIdx]
    exact h.entry hl he

variable [DecidableEq β]

/-- A request is formatted. -/
theorem Inv.format {write : Bool} {b : β} {blockno : Nat} (h : Inv s)
    (hpc : s.pc p = .alloc .locked b write) (hr : r.b = b) (ha : s.drv.Avail r.descs) :
    Inv (({ s with drv := format (s.drv.without r.descs) r blockno }.setDisk b true).goto p
      (.publish r)) := by
  subst hr
  have hholds : (s.pc p).holds = true := by rw [hpc]; rfl
  have hreq : (s.pc p).req = none := by rw [hpc]; rfl
  have hpb : (s.pc p).buf = some r.b := by rw [hpc]; rfl
  have hput := gather_put (p := p) (f := fun q => (s.pc q).descs)
    (g := fun q => (Function.update s.pc p (.publish r) q).descs)
    (fun q hq => by simp [hq]) (by simp [Pc.descs, hreq])
  have hself : (Function.update s.pc p (.publish r) p).descs = r.descs := by
    rw [Function.update_self]
    rfl
  rw [hself] at hput
  -- the descriptors of the others are not free
  have hfree : ∀ i, i ∈ gather (fun q => (s.pc q).descs) → i ∉ r.descs := by
    intro i hi hir
    have hf := ((h.descs i).1 hi).2
    rw [ha.free i hir] at hf
    cases hf
  have hothers : ∀ q r', (s.pc q).req = some r' → ∀ i ∈ r'.descs, i ∉ r.descs := by
    intro q r' hq i hi
    exact hfree i (mem_gather.2 ⟨q, by rw [descs_of_req hq]; exact hi⟩)
  have hhead : ∀ q r', (s.pc q).req = some r' → r'.i0 ≠ r.i0 := by
    intro q r' hq he
    exact hothers q r' hq r'.i0 (by simp [Req.descs]) (by simp [Req.descs, he])
  -- the other calls use other buffers
  have hdisk : ∀ q r' k, (s.pc q).job = some (r', k) →
      (Function.update s.buf r.b { s.buf r.b with disk := true } r'.b) = s.buf r'.b := by
    intro q r' k hq
    refine Function.update_of_ne ?_ _ _
    intro he
    have hqp := h.bufs q p r.b (by rw [(job_req hq).2, he]) hpb
    rw [hqp, hpc] at hq
    cases hq
  have hjob : ∀ q, (Function.update s.pc p (.publish r) q).job = (s.pc q).job :=
    update_eq Pc.job (by rw [hpc]; rfl)
  refine ⟨h.ok, bufs_update h.bufs fun q c hc hq => ?_, fun q hq => ?_, ?_, fun i => ?_,
    fun q r' hq => ?_, fun q r' hq => ?_, fun q r' hq => ?_, ?_, h.used, h.serials, h.once, ?_,
    fun q r' k hq hd => ?_, fun j hj => ?_, h.returned, fun hl => ?_⟩
  · cases hc
    exact h.bufs q p r.b hq hpb
  · rcases update_cases Pc.holds hq with ⟨rfl, -⟩ | ⟨-, hq⟩
    · exact h.holder q hholds
    · exact h.holder q hq
  · refine hput.nodup_iff.2 (List.nodup_append.2 ⟨h.nodup, ha.nodup, fun i hi i' hi' he => ?_⟩)
    exact hfree i hi (he ▸ hi')
  · refine hput.mem_iff.trans ?_
    rw [List.mem_append, h.descs i]
    show _ ↔ i < NUM ∧ (if i ∈ r.descs then false else s.drv.free i) = false
    by_cases hi : i ∈ r.descs
    · simp [hi, ha.lt i hi]
    · simp [hi]
  · rcases update_cases Pc.req hq with ⟨rfl, hy⟩ | ⟨-, hq⟩
    · cases hy
      exact formatted_format ha.nodup blockno
    · refine (h.chains q r' hq).congr fun i hi => ?_
      exact format_desc_of_notMem (hothers q r' hq i hi) blockno
  · rcases update_cases Pc.req hq with ⟨rfl, hy⟩ | ⟨-, hq⟩
    · cases hy
      simp [State.goto, State.setDisk, Virtio.format]
    · have hi := h.info q r' hq
      simpa [State.goto, State.setDisk, Virtio.format, Drv.without, hhead q r' hq] using hi
  · rcases update_cases Pc.staged hq with ⟨rfl, hy⟩ | ⟨hqp, hq⟩
    · cases hy
      exact ⟨by simp [State.goto, State.setDisk],
        by simp [State.goto, State.setDisk, Virtio.format]⟩
    · have hn := h.alone hholds hqp
      rw [(staged_holds (s := s) hq).1] at hn
      cases hn
  · refine Ring.Holds.stage h.avail num_dvd h.avail_room fun i _ hi => ?_
    exact Function.update_of_ne hi _ _
  · have hactive : active (Function.update s.buf r.b { s.buf r.b with disk := true })
        (Function.update s.pc p (.publish r)) = active s.buf s.pc := by
      funext q
      simp only [active, hjob q]
      cases hq : (s.pc q).job with
      | none => rfl
      | some y =>
          simp only
          rw [hdisk q y.1 y.2 hq]
    have hp := h.pending
    rw [← hactive] at hp
    exact hp
  · have hq : (s.pc q).job = some (r', k) := (hjob q).symm.trans hq
    refine h.ended q r' k hq ?_
    rw [← hdisk q r' k hq]
    exact hd
  · obtain ⟨q, r', hq, hi, -⟩ := h.waiter (List.mem_append_right _ hj)
    have hne : j.head ≠ r.i0 := by
      rw [← hi]
      exact hhead q r' (job_req hq).1
    have hst := h.status j hj
    simpa [State.goto, State.setDisk, Virtio.format, Drv.without, hne] using hst
  · rw [show s.lock = _ from h.holder p hholds] at hl
    cases hl

omit [DecidableEq β] in
/-- A request is published. -/
theorem Inv.publish (h : Inv s) (hpc : s.pc p = .publish r) :
    Inv { s.goto p (.wait .locked r s.published.length) with
      drv := { s.drv with avail := { s.drv.avail with idx := (s.drv.avail.idx + 1) % UINT16 } }
      published := s.published ++ [⟨s.published.length, r.i0⟩] } := by
  have hholds : (s.pc p).holds = true := by rw [hpc]; rfl
  have hst : (s.pc p).staged = some r := by rw [hpc]; rfl
  have hreq : ∀ q, (Function.update s.pc p (.wait .locked r s.published.length) q).req =
      (s.pc q).req := update_eq Pc.req (by rw [hpc]; rfl)
  have hdescs : (fun q => (Function.update s.pc p (.wait .locked r s.published.length) q).descs) =
      fun q => (s.pc q).descs := by
    funext q
    rw [Pc.descs, hreq, Pc.descs]
  have hgot : s.got ≤ s.published.length := by simpa using h.avail.le
  have hunt : (s.published ++ [(⟨s.published.length, r.i0⟩ : Job)]).drop s.got =
      s.untaken ++ [⟨s.published.length, r.i0⟩] := List.drop_append_of_le_length hgot
  refine ⟨h.ok, bufs_update h.bufs fun q c hc hq => ?_, fun q hq => ?_, ?_, ?_, fun q r' hq => ?_,
    fun q r' hq => ?_, fun q r' hq => ?_, ?_, h.used, fun i j hi => ?_, ?_, ?_,
    fun q r' k hq hd => ?_, h.status, h.returned, h.entry⟩
  · cases hc
    exact h.bufs q p r.b hq (by rw [hpc]; rfl)
  · rcases update_cases Pc.holds hq with ⟨rfl, -⟩ | ⟨-, hq⟩
    · exact h.holder q hholds
    · exact h.holder q hq
  · exact hdescs ▸ h.nodup
  · exact hdescs ▸ h.descs
  · exact (h.chains q r' ((hreq q).symm.trans hq)).congr fun _ _ => rfl
  · exact h.info q r' ((hreq q).symm.trans hq)
  · rcases update_cases Pc.staged hq with ⟨-, hq⟩ | ⟨hqp, hq⟩
    · cases hq
    · have hn := h.alone hholds hqp
      rw [(staged_holds hq).1] at hn
      cases hn
  · show Ring.Holds _ _ _ s.devIdx _ ((s.published ++ [_]).map Job.head) s.got
    rw [List.map_append]
    exact h.avail.commit num_dvd h.avail_room (h.staged p r hst).2
  · rcases Nat.lt_or_ge i s.published.length with hi' | hi'
    · rw [List.getElem?_append_left hi'] at hi
      exact h.serials i j hi
    · rw [List.getElem?_append_right hi'] at hi
      have h0 : i - s.published.length = 0 := by
        by_contra hne
        obtain ⟨m, hm⟩ := Nat.exists_eq_succ_of_ne_zero hne
        simp [hm] at hi
      rw [h0] at hi
      cases hi
      show s.published.length = i
      omega
  · show ((s.published ++ [_]).drop s.got ++ s.busy ++ s.completed).Perm (s.published ++ [_])
    rw [hunt]
    have ho := h.once
    rw [List.perm_iff_count] at ho ⊢
    intro a
    have ha := ho a
    simp only [List.count_append] at ha ⊢
    omega
  · have hself : active s.buf (Function.update s.pc p (.wait .locked r s.published.length)) p =
        [⟨s.published.length, r.i0⟩] := by
      simp [active, Pc.job, (h.staged p r hst).1]
    have hput := gather_put (p := p) (f := active s.buf s.pc)
      (g := active s.buf (Function.update s.pc p (.wait .locked r s.published.length)))
      (fun q hq => by simp [active, hq]) (by simp [active, hpc, Pc.job])
    rw [hself] at hput
    show ((s.published ++ [_]).drop s.got ++ s.busy ++ s.unseen).Perm _
    rw [hunt]
    have ho := h.pending
    rw [List.perm_iff_count] at ho hput ⊢
    intro a
    have ha := ho a
    have hb := hput a
    simp only [List.count_append] at ha hb ⊢
    refine Eq.trans ?_ hb.symm
    omega
  · rcases update_cases Pc.job hq with ⟨rfl, hy⟩ | ⟨-, hq⟩
    · cases hy
      exact absurd ((h.staged q r hst).1.symm.trans hd) (by decide)
    · exact h.ended q r' k hq hd

omit [DecidableEq β] in
/-- A call returns. -/
theorem Inv.return (h : Inv s) (hpc : s.pc p = .wait .locked r k)
    (hd : (s.buf r.b).disk = false)
    (hfree : d.free = fun i => if i ∈ r.descs then true else s.drv.free i)
    (hdesc : ∀ i, i ∉ r.descs → d.desc i = s.drv.desc i) (havail : d.avail = s.drv.avail)
    (hused : d.used = s.drv.used) (husedIdx : d.usedIdx = s.drv.usedIdx)
    (hinfo : d.info = Function.update s.drv.info r.i0 { s.drv.info r.i0 with b := none }) :
    Inv { s.goto p .idle with
      drv := d
      lock := none
      returned := s.returned ++ [⟨k, r.i0⟩] } := by
  have hholds : (s.pc p).holds = true := by rw [hpc]; rfl
  have hreq : (s.pc p).req = some r := by rw [hpc]; rfl
  have hjob : (s.pc p).job = some (r, k) := by rw [hpc]; rfl
  have htake := gather_take (p := p) (f := fun q => (s.pc q).descs)
    (g := fun q => (Function.update s.pc p .idle q).descs)
    (fun q hq => by simp [hq]) (by simp [Pc.descs, Pc.req])
  simp only [descs_of_req hreq] at htake
  have hnd := List.nodup_append.1 (htake.nodup_iff.1 h.nodup)
  have hother : ∀ q r', (Function.update s.pc p .idle q).req = some r' →
      q ≠ p ∧ (s.pc q).req = some r' := by
    intro q r' hq
    rcases update_cases Pc.req hq with ⟨-, hq⟩ | hq
    · cases hq
    · exact hq
  refine ⟨h.ok, bufs_update h.bufs fun q c hc hq => ?_, fun q hq => ?_, hnd.1, fun i => ?_,
    fun q r' hq => ?_, fun q r' hq => ?_, fun q r' hq => ?_, ?_, ?_, h.serials, h.once, ?_,
    fun q r' k' hq hd' => ?_, fun j hj => ?_, fun j hj => ?_, fun he => by cases he⟩
  · cases hc
  · rcases update_cases Pc.holds hq with ⟨-, hq⟩ | ⟨hqp, hq⟩
    · cases hq
    · have hn := h.alone hholds hqp
      rw [hq] at hn
      cases hn
  · have hi := (h.descs i).symm.trans (htake.mem_iff)
    rw [List.mem_append] at hi
    show i ∈ gather (fun q => (Function.update s.pc p .idle q).descs) ↔ i < NUM ∧ d.free i = false
    rw [hfree]
    by_cases hir : i ∈ r.descs
    · have hn : i ∉ gather fun q => (Function.update s.pc p .idle q).descs := fun hm =>
        hnd.2.2 i hm i hir rfl
      simpa [hir] using hn
    · simpa [hir] using hi.symm
  · obtain ⟨hqp, hq⟩ := hother q r' hq
    exact (h.chains q r' hq).congr fun i hi => hdesc i (h.disjoint hq hreq hqp hi)
  · obtain ⟨hqp, hq⟩ := hother q r' hq
    have hne : r'.i0 ≠ r.i0 := fun he =>
      h.disjoint hq hreq hqp (i := r'.i0) (by simp [Req.descs]) (by simp [Req.descs, he])
    show (d.info r'.i0).b = some r'.b
    rw [hinfo, Function.update_of_ne hne]
    exact h.info q r' hq
  · rcases update_cases Pc.staged hq with ⟨-, hq⟩ | ⟨hqp, hq⟩
    · cases hq
    · have hn := h.alone hholds hqp
      rw [(staged_holds hq).1] at hn
      cases hn
  · show Ring.Holds _ _ d.avail.ring _ d.avail.idx _ _
    rw [havail]
    exact h.avail
  · show Ring.Holds _ _ d.used.ring d.usedIdx d.used.idx _ _
    rw [hused, husedIdx]
    exact h.used
  · have hactive : active s.buf (Function.update s.pc p .idle) = active s.buf s.pc := by
      funext q
      by_cases hqp : q = p
      · subst hqp
        rw [active, active, Function.update_self, hjob]
        simp [Pc.job, hd]
      · simp [active, hqp]
    have hp := h.pending
    rw [← hactive] at hp
    exact hp
  · rcases update_cases Pc.job hq with ⟨-, hq⟩ | ⟨-, hq⟩
    · cases hq
    · exact h.ended q r' k' hq hd'
  · show (d.info j.head).status = 0
    rw [hinfo]
    have hs := h.status j hj
    by_cases hjr : j.head = r.i0
    · rw [hjr, Function.update_self]
      rwa [hjr] at hs
    · rwa [Function.update_of_ne hjr]
  · rcases List.mem_append.1 hj with hj | hj
    · exact h.returned j hj
    · rw [List.mem_singleton.1 hj]
      exact h.ended p r k hjob hd

/-! ## The device and the handler -/

omit [DecidableEq β] in
/-- The next entry of the avail ring is the next request that was published. -/
theorem Inv.next_untaken (h : Inv s) (hne : s.devIdx ≠ s.drv.avail.idx) :
    s.untaken = ⟨s.got, s.drv.avail.ring (s.devIdx % NUM)⟩ :: s.published.drop (s.got + 1) ∧
      Ring.Holds NUM UINT16 s.drv.avail.ring ((s.devIdx + 1) % UINT16) s.drv.avail.idx
        (s.published.map Job.head) (s.got + 1) := by
  have hlt : s.got < (s.published.map Job.head).length :=
    Nat.lt_of_le_of_ne h.avail.le fun he => hne ((h.avail.empty_iff num_lt).2 he)
  obtain ⟨hcell, hget⟩ := h.avail.get num_dvd hlt
  refine ⟨?_, hget⟩
  rw [List.length_map] at hlt
  rw [List.getElem?_map, List.getElem?_eq_getElem hlt, Option.map_some] at hcell
  have hser := h.serials s.got _ (List.getElem?_eq_getElem hlt)
  rw [State.untaken, List.drop_eq_getElem_cons hlt, List.cons.injEq]
  refine ⟨?_, rfl⟩
  rw [← Option.some.inj hcell]
  cases hj : s.published[s.got] with
  | mk serial head =>
      rw [hj] at hser
      exact congrArg (Job.mk · head) hser

omit [DecidableEq β] in
/-- The device takes a request. -/
theorem Inv.take (h : Inv s) (hne : s.devIdx ≠ s.drv.avail.idx) :
    Inv { s with
      devIdx := (s.devIdx + 1) % UINT16
      busy := s.busy ++ [⟨s.got, s.drv.avail.ring (s.devIdx % NUM)⟩]
      got := s.got + 1 } := by
  obtain ⟨hnext, hget⟩ := h.next_untaken hne
  have hone := h.once
  have hpend := h.pending
  rw [hnext] at hone hpend
  refine ⟨h.ok, h.bufs, h.holder, h.nodup, h.descs, h.chains, h.info, h.staged, hget, h.used,
    h.serials, ?_, ?_, h.ended, h.status, h.returned, h.entry⟩
  · refine List.Perm.trans ?_ hone
    show (s.published.drop (s.got + 1) ++ (s.busy ++ [_]) ++ s.completed).Perm _
    rw [List.perm_iff_count]
    intro a
    simp only [List.count_append, List.cons_append, List.count_cons, List.count_nil]
    omega
  · refine List.Perm.trans ?_ hpend
    show (s.published.drop (s.got + 1) ++ (s.busy ++ [_]) ++ s.unseen).Perm _
    rw [List.perm_iff_count]
    intro a
    simp only [List.count_append, List.cons_append, List.count_cons, List.count_nil]
    omega

/-- The device finds the request in its chain. -/
theorem perform_eq (hf : Formatted s.drv r) :
    ∃ buf image, s.perform r.i0 = some { s with
        drv := { s.drv with
          info := Function.update s.drv.info r.i0 { s.drv.info r.i0 with status := 0 } }
        buf := buf
        image := image } ∧ ∀ b, (buf b).disk = (s.buf b).disk := by
  unfold State.perform
  simp only [hf.d0.1, hf.d0.2.1, hf.d1.1, hf.d1.2.1, hf.d2.1]
  split_ifs
  · exact ⟨_, _, rfl, fun _ => rfl⟩
  · refine ⟨_, _, rfl, fun b => ?_⟩
    by_cases hb : b = r.b
    · simp [hb]
    · simp [hb]

omit [DecidableEq β] in
/-- A request is completed. -/
theorem Inv.complete {buf : β → Buf} {image : Disk} (h : Inv s) (hj : j ∈ s.busy)
    (hbuf : ∀ b, (buf b).disk = (s.buf b).disk) :
    Inv { s with
      drv := { s.drv with
        info := Function.update s.drv.info j.head { s.drv.info j.head with status := 0 }
        used := ⟨(s.drv.used.idx + 1) % UINT16,
          Function.update s.drv.used.ring (s.drv.used.idx % NUM) j.head⟩ }
      buf := buf
      image := image
      busy := s.busy.erase j
      completed := s.completed ++ [j] } := by
  have hseen : s.seen ≤ s.completed.length := by simpa using h.used.le
  have huns : (s.completed ++ [j]).drop s.seen = s.unseen ++ [j] :=
    List.drop_append_of_le_length hseen
  have hbusy := List.perm_cons_erase hj
  have hactive : active buf s.pc = active s.buf s.pc := by
    funext p
    simp only [active, hbuf]
  have hused : Ring.Holds NUM UINT16
      (Function.update s.drv.used.ring (s.drv.used.idx % NUM) j.head) s.drv.usedIdx
      ((s.drv.used.idx + 1) % UINT16) (s.completed.map Job.head ++ [j.head]) s.seen := by
    refine h.used.put num_dvd h.used_room (Function.update_self _ _ _) fun i _ hi => ?_
    exact Function.update_of_ne hi _ _
  refine ⟨h.ok, h.bufs, h.holder, h.nodup, h.descs, fun p r hp => ?_, fun p r hp => ?_,
    fun p r hp => ?_, h.avail, ?_, h.serials, ?_, ?_, fun p r k hp hd => ?_, fun i hi => ?_,
    fun i hi => ?_, fun _ _ => ?_⟩
  · exact (h.chains p r hp).congr fun _ _ => rfl
  · show (Function.update s.drv.info j.head _ r.i0).b = some r.b
    by_cases hr : r.i0 = j.head
    · rw [hr, Function.update_self, ← hr]
      exact h.info p r hp
    · rw [Function.update_of_ne hr]
      exact h.info p r hp
  · refine ⟨?_, (h.staged p r hp).2⟩
    rw [show (buf r.b).disk = _ from hbuf r.b]
    exact (h.staged p r hp).1
  · show Ring.Holds _ _ _ _ _ ((s.completed ++ [j]).map Job.head) _
    rw [List.map_append]
    exact hused
  · refine List.Perm.trans ?_ h.once
    show (s.untaken ++ s.busy.erase j ++ (s.completed ++ [j])).Perm _
    rw [List.perm_iff_count] at hbusy ⊢
    intro a
    have ha := hbusy a
    simp only [List.count_append, List.count_cons, List.count_nil] at ha ⊢
    omega
  · show (s.untaken ++ s.busy.erase j ++ (s.completed ++ [j]).drop s.seen).Perm
      (gather (active buf s.pc))
    rw [huns, hactive]
    refine List.Perm.trans ?_ h.pending
    rw [List.perm_iff_count] at hbusy ⊢
    intro a
    have ha := hbusy a
    simp only [List.count_append, List.count_cons, List.count_nil] at ha ⊢
    omega
  · exact List.mem_append_left _ (h.ended p r k hp ((hbuf r.b).symm.trans hd))
  · have hi : i ∈ s.unseen ++ [j] := huns ▸ hi
    show (Function.update s.drv.info j.head _ i.head).status = 0
    by_cases hr : i.head = j.head
    · rw [hr, Function.update_self]
    · rw [Function.update_of_ne hr]
      rcases List.mem_append.1 hi with hi | hi
      · exact h.status i hi
      · exact absurd (congrArg Job.head (List.mem_singleton.1 hi)) hr
  · exact List.mem_append_left _ (h.returned i hi)
  · -- the used ring is not empty now
    show s.drv.usedIdx ≠ (s.drv.used.idx + 1) % UINT16
    intro he
    have hlen := (hused.empty_iff num_lt).1 he
    simp only [List.length_append, List.length_map, List.length_singleton] at hlen
    omega

omit [DecidableEq β] in
/-- The next entry of the used ring is the next request that was completed. -/
theorem Inv.next_unseen (h : Inv s) (hne : s.drv.usedIdx ≠ s.drv.used.idx) :
    ∃ j, s.completed[s.seen]? = some j ∧ s.unseen = j :: s.completed.drop (s.seen + 1) ∧
      s.drv.used.ring (s.drv.usedIdx % NUM) = j.head ∧
      Ring.Holds NUM UINT16 s.drv.used.ring ((s.drv.usedIdx + 1) % UINT16) s.drv.used.idx
        (s.completed.map Job.head) (s.seen + 1) := by
  have hlt : s.seen < (s.completed.map Job.head).length :=
    Nat.lt_of_le_of_ne h.used.le fun he => hne ((h.used.empty_iff num_lt).2 he)
  obtain ⟨hcell, hget⟩ := h.used.get num_dvd hlt
  rw [List.length_map] at hlt
  rw [List.getElem?_map, List.getElem?_eq_getElem hlt, Option.map_some] at hcell
  exact ⟨_, List.getElem?_eq_getElem hlt, List.drop_eq_getElem_cons hlt,
    (Option.some.inj hcell).symm, hget⟩

/-- The handler has seen that a request is completed. -/
theorem Inv.see (h : Inv s) (hlock : s.lock = some .intr) (hj : s.completed[s.seen]? = some j)
    (huns : s.unseen = j :: s.completed.drop (s.seen + 1))
    (hget : Ring.Holds NUM UINT16 s.drv.used.ring ((s.drv.usedIdx + 1) % UINT16) s.drv.used.idx
      (s.completed.map Job.head) (s.seen + 1))
    (hp : (s.pc p).job = some (r, j.serial)) (hi : r.i0 = j.head)
    (hdisk : (s.buf r.b).disk = true) :
    Inv { s.setDisk r.b false with
      drv := { s.drv with usedIdx := (s.drv.usedIdx + 1) % UINT16 }
      entry := false
      seen := s.seen + 1 } := by
  have hpb := (job_req hp).2
  have hother : ∀ (q : Fin n) (b : β), q ≠ p → (s.pc q).buf = some b →
      Function.update s.buf r.b { s.buf r.b with disk := false } b = s.buf b := by
    intro q b hqp hq
    refine Function.update_of_ne ?_ _ _
    rintro rfl
    exact hqp (h.bufs q p _ hq hpb)
  have hmem : j ∈ s.completed := List.mem_of_getElem? hj
  refine ⟨h.ok, h.bufs, h.holder, h.nodup, h.descs, fun q r' hq => ?_, h.info, fun q r' hq => ?_,
    h.avail, hget, h.serials, h.once, ?_, fun q r' k hq hd => ?_, fun i hi => ?_, h.returned,
    nofun⟩
  · exact (h.chains q r' hq).congr fun _ _ => rfl
  · have hl := h.holder q (staged_holds hq).1
    rw [hlock] at hl
    cases hl
  · have htake := gather_take (p := p) (f := active s.buf s.pc)
      (g := active (Function.update s.buf r.b { s.buf r.b with disk := false }) s.pc)
      (fun q hqp => ?_) (by simp [active, hp])
    · have hself : active s.buf s.pc p = [j] := by simp [active, hp, hdisk, hi]
      have hpend := h.pending
      rw [hself] at htake
      rw [huns] at hpend
      show (s.untaken ++ s.busy ++ s.completed.drop (s.seen + 1)).Perm
        (gather (active (Function.update s.buf r.b { s.buf r.b with disk := false }) s.pc))
      rw [List.perm_iff_count] at hpend htake ⊢
      intro a
      have h1 := hpend a
      have h2 := htake a
      simp only [List.count_append, List.count_cons, List.count_nil] at h1 h2 ⊢
      omega
    · cases hq : (s.pc q).job with
      | none => simp [active, hq]
      | some y => simp only [active, hq, hother q y.1.b hqp (job_req hq).2]
  · by_cases hqp : q = p
    · rw [hqp] at hq
      have hq : some (r', k) = some (r, j.serial) := hq.symm.trans hp
      cases hq
      rw [hi]
      exact hmem
    · refine h.ended q r' k hq ?_
      rw [← hother q r'.b hqp (job_req hq).2]
      exact hd
  · refine h.status i ?_
    rw [huns]
    exact List.mem_cons_of_mem _ hi

/-! ## Runs -/

theorem Inv.act_call {b : β} {write : Bool} (h : Inv s)
    (hs : act s (.call p b write) = some s') : Inv s' := by
  cases hpc : s.pc p with
  | idle =>
      simp only [act, hpc] at hs
      split_ifs at hs with hb
      cases hs
      refine h.moved (by rw [hpc]; rfl) (by rw [hpc]; rfl) (by rw [hpc]; rfl) ?_ nofun
        (fun q _ hq => h.holder q hq) h.entry
      intro q c hc hq
      cases hc
      exact absurd hq (hb q)
  | alloc ph b w => simp [act, hpc] at hs
  | publish r => simp [act, hpc] at hs
  | wait ph r k => simp [act, hpc] at hs

theorem Inv.act_acquire (h : Inv s) (hs : act s (.acquire p) = some s') : Inv s' := by
  simp only [act] at hs
  split_ifs at hs with hl
  have hfree : ∀ q, q ≠ p → (s.pc q).holds = true →
      some (Holder.proc p) = some (Holder.proc q) := by
    intro q _ hq
    rw [h.holder q hq] at hl
    cases hl
  split at hs
  · rename_i b w hpc
    cases hs
    exact h.turn hpc rfl rfl rfl rfl (fun _ => rfl) hfree nofun
  · rename_i r k hpc
    cases hs
    exact h.turn hpc rfl rfl rfl rfl (fun _ => rfl) hfree nofun
  · cases hs

omit [DecidableEq β] in
/-- A process gives up the lock and sleeps. -/
theorem Inv.sleep {y : Pc β} (h : Inv s) (hpc : s.pc p = y) (hy : y.holds = true)
    (hreq : x.req = y.req) (hjob : x.job = y.job) (hstaged : x.staged = y.staged)
    (hbuf : x.buf = y.buf) (hx : x.holds = false) :
    Inv { s.goto p x with lock := none, entry := s.entry } := by
  refine h.turn hpc hreq hjob hstaged hbuf (fun hh => ?_) (fun q hq hh => ?_) nofun
  · rw [hx] at hh
    cases hh
  · rw [h.alone (by rw [hpc]; exact hy) hq] at hh
    cases hh

theorem Inv.act_alloc (h : Inv s) (hs : act s (.alloc p) = some s') : Inv s' := by
  simp only [act] at hs
  split at hs
  · rename_i b w hpc
    obtain ⟨a, d, he, hspec⟩ := allocLoop_spec (d := s.drv) 3 [] (Drv.Avail.nil _)
    rw [Drv.without_nil] at he
    rw [alloc3Desc, he] at hs
    cases a with
    | got idx =>
        obtain ⟨ha, rfl, hlen⟩ := hspec
        match idx, hlen with
        | [i0, i1, i2], _ =>
            simp only [Option.some.injEq] at hs
            subst hs
            exact h.format hpc rfl ha
    | failed freed =>
        simp only [Option.some.injEq] at hs
        subst hs
        have hm : Inv { State.goto { s with drv := d } p (.alloc .asleep b w) with
            lock := none, entry := s.entry } :=
          (h.same hspec).sleep hpc rfl rfl rfl rfl rfl rfl
        refine hm.like (like_update (fun q => ?_) p _)
        split_ifs
        · exact wakeFree_like s.pc q
        · exact .refl _
  · cases hs

omit [DecidableEq β] in
/-- The end of a call frees the chain of its request. -/
theorem Inv.freeChain (h : Inv s) (hreq : (s.pc p).req = some r) (info : Nat → Info β) :
    Virtio.freeChain (NUM + 1) { s.drv with info := info } r.i0 = .ok
      (((Drv.freed { s.drv with info := info } r.i0).freed r.i1).freed r.i2) := by
  have hmem : ∀ i ∈ r.descs, i < NUM ∧ s.drv.free i = false := fun i hi =>
    (h.descs i).1 (mem_gather.2 ⟨p, by rw [descs_of_req hreq]; exact hi⟩)
  have hnd : r.descs.Nodup := by
    have hn := nodup_of_gather h.nodup p
    simpa only [descs_of_req hreq] using hn
  exact freeChain_eq ((h.chains p r hreq).congr fun _ _ => rfl) hnd (fun i hi => (hmem i hi).1)
    fun i hi => (hmem i hi).2

theorem Inv.act_test (h : Inv s) (hs : act s (.test p) = some s') : Inv s' := by
  simp only [act] at hs
  split at hs
  · rename_i r k hpc
    split at hs
    · cases hs
      exact h.sleep hpc rfl rfl rfl rfl rfl rfl
    · rename_i hd
      rw [h.freeChain (by rw [hpc]; rfl)] at hs
      simp only [Option.some.injEq] at hs
      subst hs
      have hret := h.return hpc (by simpa using hd) (funext (freed3_free { s.drv with
            info := Function.update s.drv.info r.i0 { s.drv.info r.i0 with b := none } } r))
        (fun i hi => freed3_desc hi) rfl rfl rfl rfl
      exact hret.like (like_update (wakeFree_like s.pc) p _)
  · cases hs

theorem Inv.act_intr (h : Inv s) (hs : act s .intr = some s') : Inv s' := by
  simp only [act] at hs
  split_ifs at hs with hl
  cases hs
  refine ⟨h.ok, h.bufs, fun q hq => ?_, h.nodup, h.descs, h.chains, h.info, h.staged, h.avail,
    h.used, h.serials, h.once, h.pending, h.ended, h.status, h.returned, nofun⟩
  rw [h.holder q hq] at hl
  cases hl

theorem Inv.act_intrTest (h : Inv s) (hs : act s .intrTest = some s') : Inv s' := by
  simp only [act] at hs
  split_ifs at hs with hl hne
  · cases hs
    exact ⟨h.ok, h.bufs, h.holder, h.nodup, h.descs, h.chains, h.info, h.staged, h.avail,
      h.used, h.serials, h.once, h.pending, h.ended, h.status, h.returned, fun _ _ => hne⟩
  · cases hs
    refine ⟨h.ok, h.bufs, fun q hq => ?_, h.nodup, h.descs, h.chains, h.info, h.staged,
      h.avail, h.used, h.serials, h.once, h.pending, h.ended, h.status, h.returned, nofun⟩
    have hq := h.holder q hq
    rw [hl.1] at hq
    cases hq

theorem Inv.act_intrEntry (h : Inv s) (hs : act s .intrEntry = some s') : Inv s' := by
  simp only [act] at hs
  rw [ite_eq_iff] at hs
  obtain ⟨hl, hs⟩ | ⟨-, hs⟩ := hs
  · obtain ⟨j, hj, huns, hid, hget⟩ := h.next_unseen (h.entry hl.1 hl.2)
    obtain ⟨p, r, hp, hi, hdisk⟩ := h.waiter (j := j) (by rw [huns]; simp)
    have hstatus := h.status j (by rw [huns]; exact List.mem_cons_self)
    have hinfo := h.info p r (job_req hp).1
    rw [hi] at hinfo
    rw [hid, if_neg (not_not.2 hstatus), hinfo] at hs
    simp only [Option.some.injEq] at hs
    subst hs
    exact (h.see hl.1 hj huns hget hp hi hdisk).like (wakeBuf_like r.b s.pc)
  · cases hs

theorem Inv.act_complete (h : Inv s) (hs : act s (.complete j) = some s') : Inv s' := by
  simp only [act] at hs
  split_ifs at hs with hj
  obtain ⟨p, r, hp, hi, -⟩ := h.waiter (j := j) (by simp [hj])
  obtain ⟨buf, image, heq, hbuf⟩ := perform_eq (h.chains p r (job_req hp).1)
  rw [hi] at heq
  rw [heq] at hs
  simp only [Option.some.injEq] at hs
  subst hs
  exact h.complete hj hbuf

theorem Inv.step {a : Act n β} (h : Inv s) (hs : Virtio.step s a = some s') : Inv s' := by
  unfold Virtio.step at hs
  rw [if_pos h.ok.1] at hs
  cases a with
  | call p b write => exact h.act_call hs
  | acquire p => exact h.act_acquire hs
  | alloc p => exact h.act_alloc hs
  | publish p =>
      simp only [act] at hs
      split at hs
      · rename_i r hpc
        cases hs
        exact h.publish hpc
      · cases hs
  | test p => exact h.act_test hs
  | intr => exact h.act_intr hs
  | intrTest => exact h.act_intrTest hs
  | intrEntry => exact h.act_intrEntry hs
  | take =>
      simp only [act] at hs
      split_ifs at hs with hne
      cases hs
      exact h.take hne
  | complete j => exact h.act_complete hs

/-- The items between two counters of a ring. -/
def Virtq.items (v : Virtq) (r : Nat) : List Nat :=
  (List.range ((v.idx + UINT16 - r) % UINT16)).map fun i => v.ring ((r + i) % NUM)

/-- The protocol in every state of every run.  No panic is reached.  While the lock is free,
the descriptors in use are those of the requests in progress, three for each.  Every
request that was published is in the avail ring, with the device, or completed, and in
only one of these places.  The flag of a buffer is cleared, and a call returns, only after the
request was completed, and the handler finds the buffer of the request.  Both rings
hold what was put in and not taken out. -/
theorem disk_protocol (buf : β → Buf) (image : Disk) {as : List (Act n β)}
    (hr : Run.exec Virtio.step (Virtio.init n buf image) as = some s) :
    s.panic = none ∧ s.fault = false ∧
    (s.lock = none →
      (∀ i < NUM, s.drv.free i = false ↔
        ∃ p r, (s.pc p).req = some r ∧ i ∈ s.drv.chain r.i0) ∧
      (∀ p r, (s.pc p).req = some r → (s.drv.chain r.i0).Nodup) ∧
      ∀ p q r r', p ≠ q → (s.pc p).req = some r → (s.pc q).req = some r' →
        (s.drv.chain r.i0).Disjoint (s.drv.chain r'.i0)) ∧
    (s.untaken ++ s.busy ++ s.completed).Perm s.published ∧ s.published.Nodup ∧
    (∀ p r k, (s.pc p).job = some (r, k) → (s.buf r.b).disk = false →
      ⟨k, r.i0⟩ ∈ s.completed) ∧
    (∀ j ∈ s.returned, j ∈ s.completed) ∧
    (s.lock = some .intr → s.entry = true →
      ∃ p r k, (s.pc p).job = some (r, k) ∧ s.completed[s.seen]? = some ⟨k, r.i0⟩ ∧
        s.drv.used.ring (s.drv.usedIdx % NUM) = r.i0 ∧ (s.drv.info r.i0).b = some r.b) ∧
    s.drv.avail.items s.devIdx = s.untaken.map Job.head ∧
    s.drv.used.items s.drv.usedIdx = s.unseen.map Job.head := by
  have h : Inv s := Run.exec_invariant (fun _ _ _ h hs => h.step hs) (Inv.init n buf image) hr
  have hchain : ∀ p r, (s.pc p).req = some r → s.drv.chain r.i0 = r.descs := fun p r hp =>
    (h.chains p r hp).chain_eq
  refine ⟨h.ok.1, h.ok.2,
    fun _ => ⟨fun i hi => ?_, fun p r hp => ?_, fun p q r r' hne hp hq => ?_⟩, h.once, ?_, h.ended, h.returned, fun hl he => ?_, ?_, ?_⟩
  · have hd := h.descs i
    rw [mem_gather] at hd
    constructor
    · intro hf
      obtain ⟨p, hp⟩ := hd.2 ⟨hi, hf⟩
      cases hreq : (s.pc p).req with
      | none => simp [Pc.descs, hreq] at hp
      | some r =>
          refine ⟨p, r, hreq, ?_⟩
          rw [hchain p r hreq, ← descs_of_req hreq]
          exact hp
    · rintro ⟨p, r, hp, hm⟩
      rw [hchain p r hp, ← descs_of_req hp] at hm
      exact (hd.1 ⟨p, hm⟩).2
  · rw [hchain p r hp, ← descs_of_req hp]
    exact nodup_of_gather h.nodup p
  · rw [hchain p r hp, hchain q r' hq]
    exact fun i hi hi' => h.disjoint hp hq hne hi hi'
  · rw [List.nodup_iff_getElem?_ne_getElem?]
    intro i i' hlt hlen he
    rw [List.getElem?_eq_getElem hlen] at he
    have h1 := h.serials i _ he
    have h2 := h.serials i' _ (List.getElem?_eq_getElem hlen)
    omega
  · obtain ⟨j, hj, huns, hid, -⟩ := h.next_unseen (h.entry hl he)
    obtain ⟨p, r, hp, hi, -⟩ := h.waiter (j := j) (by rw [huns]; simp)
    refine ⟨p, r, j.serial, hp, ?_, ?_, h.info p r (job_req hp).1⟩
    · rw [hj, hi]
    · rw [hid, hi]
  · rw [Virtq.items, h.avail.count num_lt, h.avail.contents num_dvd, State.untaken, List.map_drop]
  · rw [Virtq.items, h.used.count num_lt, h.used.contents num_dvd, State.unseen, List.map_drop]

end

/-- A process reads a block: it publishes a request and sleeps, the device completes the
request, and the handler wakes the process. -/
def readOne : List (Act 1 Unit) :=
  [.call 0 () false, .acquire 0, .alloc 0, .publish 0, .test 0, .take, .complete ⟨0, 0⟩, .intr,
    .intrTest, .intrEntry, .intrTest, .acquire 0, .test 0]

theorem disk_protocol_readOne : ∃ s,
    Run.exec step (init 1 (fun _ => ⟨false, 5, fun _ => 0⟩) fun _ _ => 0) readOne = some s ∧
    s.returned = [⟨0, 0⟩] ∧ (⟨0, 0⟩ : Job) ∈ s.completed := by
  obtain ⟨s, hr, hret⟩ : ∃ s,
      Run.exec step (init 1 (fun _ => ⟨false, 5, fun _ => 0⟩) fun _ _ => 0) readOne = some s ∧
      s.returned = [⟨0, 0⟩] := Run.exists_exec_of_check (by decide +kernel)
  refine ⟨s, hr, hret, ?_⟩
  exact (disk_protocol _ _ hr).2.2.2.2.2.2.1 ⟨0, 0⟩ (by simp [hret])

end Xv6.Virtio
