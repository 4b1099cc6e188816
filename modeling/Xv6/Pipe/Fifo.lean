import Xv6.Lib.Ring
import Xv6.Pipe.Calls

/-!
# A pipe is a queue

The bytes that `piperead` takes out are those that `pipewrite` stored, in the same
order, however the calls interleave and however often the counters wrap.
-/

namespace Xv6.Pipe

/-- The ring of a pipe after `sent` was stored and `got` bytes were taken out. -/
def Holds (pi : Pipe) (sent : List UInt8) (got : Nat) : Prop :=
  Ring.Holds PIPESIZE UINT pi.data.get pi.nread pi.nwrite sent got

theorem pipesize_lt : PIPESIZE < UINT := by decide

theorem pipesize_dvd : PIPESIZE ∣ UINT := by decide

variable {pi : Pipe} {sent : List UInt8} {got : Nat} {n : Int} {e : Ends}

theorem Holds.put (h : Holds pi sent got) (hroom : pi.nwrite ≠ (pi.nread + PIPESIZE) % UINT)
    (ch : UInt8) : Holds (pi.put ch) (sent ++ [ch]) got := by
  have hfull : sent.length ≠ got + PIPESIZE := fun he =>
    hroom ((Ring.Holds.full_iff h pipesize_lt).2 he)
  have hfits := h.fits
  refine Ring.Holds.put h pipesize_dvd (by omega) ?_ fun k _ hk => ?_
  · exact pi.data.get_write_self (Nat.mod_lt _ (by decide)) ch
  · refine Bytes.Region.get_write_of_disjoint _ _ _ ?_
    simp only [List.length_cons, List.length_nil]
    omega

/-- `bs` is what `src` starts with. -/
def FromSrc (src : Nat → Option UInt8) (bs : List UInt8) : Prop :=
  ∀ k, k < bs.length → bs[k]? = src k

/-- What a stretch of `pipewrite` did that started with `i`. -/
structure Wrote.Ok (src : Nat → Option UInt8) (n : Int) (pi : Pipe) (i : Nat) (sent : List UInt8)
    (got : Nat) (w : Wrote) : Prop where
  holds : Holds w.pipe (sent ++ w.bytes) got
  i_eq : w.i = i + w.bytes.length
  src_eq : ∀ k, k < w.bytes.length → w.bytes[k]? = src (i + k)
  ends : w.ends = .sleep ∨ w.ends = .ret w.i ∨ w.ends = .ret (-1) ∧ 0 < n

/-- A stretch that stores nothing. -/
theorem Wrote.Ok.nil {src : Nat → Option UInt8} {i : Nat} (h : Holds pi sent got)
    (he : e = .sleep ∨ e = .ret i ∨ e = .ret (-1) ∧ 0 < n) :
    Wrote.Ok src n pi i sent got ⟨pi, i, [], e⟩ :=
  ⟨by simpa using h, rfl, fun _ hk => absurd hk (Nat.not_lt_zero _), he⟩

theorem pipewrite_ok (src : Nat → Option UInt8) (killed : Nat → Bool) (n : Int) (k : Nat) :
    ∀ {pi : Pipe} {sent : List UInt8} (i : Nat), Holds pi sent got → (k ≠ 0 → 0 < n) →
      Wrote.Ok src n pi i sent got (pipewrite src killed k pi i) := by
  -- by induction on the number of bytes left, as the loop runs
  induction k with
  | zero => exact fun i h _ => .nil h (.inr (.inl rfl))
  | succ k ih =>
      intro pi sent i h hn
      have hpos : 0 < n := hn (Nat.succ_ne_zero k)
      unfold pipewrite
      split_ifs with hk hfull
      · exact .nil h (.inr (.inr ⟨rfl, hpos⟩))
      · exact .nil h (.inl rfl)
      · cases hs : src i with
        | none => exact .nil h (.inr (.inl rfl))
        | some ch =>
            have hw := ih (i + 1) (h.put hfull ch) fun _ => hpos
            refine ⟨?_, ?_, fun j hj => ?_, hw.ends⟩
            · simpa [List.append_assoc] using hw.holds
            · have hi := hw.i_eq
              simp only [List.length_cons]
              omega
            · cases j with
              | zero => simpa using hs.symm
              | succ j =>
                  have hj' := hw.src_eq j (by simpa using hj)
                  rw [Nat.add_assoc, Nat.add_comm 1 j] at hj'
                  simpa using hj'

/-! ## Reading -/

theorem Holds.lt (h : Holds pi sent got) (hne : pi.nread ≠ pi.nwrite) : got < sent.length :=
  Nat.lt_of_le_of_ne h.le fun he => hne ((Ring.Holds.empty_iff h pipesize_lt).2 he)

theorem Holds.get (h : Holds pi sent got) (hne : pi.nread ≠ pi.nwrite) :
    Holds { pi with nread := (pi.nread + 1) % UINT } sent (got + 1) :=
  (Ring.Holds.get h pipesize_dvd (h.lt hne)).2

/-- What a stretch of `piperead` took out. -/
structure Read.Ok (pi : Pipe) (sent : List UInt8) (got : Nat) (r : Read) : Prop where
  holds : Holds r.pipe sent (got + r.bytes.length)
  bytes_eq : r.bytes = (sent.drop got).take r.bytes.length
  writeopen : r.pipe.writeopen = pi.writeopen

theorem Read.Ok.nil (h : Holds pi sent got) : Read.Ok pi sent got ⟨pi, [], e⟩ :=
  ⟨h, rfl, rfl⟩

/-- One byte is taken out first. -/
theorem Read.Ok.cons {r : Read} (h : Holds pi sent got) (hne : pi.nread ≠ pi.nwrite)
    (hr : Read.Ok { pi with nread := (pi.nread + 1) % UINT } sent (got + 1) r) :
    Read.Ok pi sent got ⟨r.pipe, pi.data.get (pi.nread % PIPESIZE) :: r.bytes, e⟩ := by
  obtain ⟨hget, -⟩ := Ring.Holds.get h pipesize_dvd (h.lt hne)
  refine ⟨?_, ?_, hr.writeopen⟩
  · have h1 := hr.holds
    rwa [Nat.add_right_comm] at h1
  · rw [List.getElem?_eq_some_iff] at hget
    obtain ⟨hlt, hget⟩ := hget
    rw [List.drop_eq_getElem_cons hlt, List.length_cons, List.take_succ_cons, hget, ← hr.bytes_eq]

theorem pipereadCopy_ok (dst : Nat → Bool) (k : Nat) : ∀ {pi : Pipe} {got : Nat} (i : Nat),
    Holds pi sent got → Read.Ok pi sent got (pipereadCopy dst k pi i) := by
  induction k with
  | zero => exact fun i h => .nil h
  | succ k ih =>
      intro pi got i h
      unfold pipereadCopy
      split_ifs with he hd
      · exact .nil h
      · exact .cons h he (ih (i + 1) (h.get he))
      · exact .cons h he (.nil (e := .sleep) (h.get he))

theorem piperead_ok (dst : Nat → Bool) (killed : Bool) (n : Int) (h : Holds pi sent got) :
    Read.Ok pi sent got (piperead dst killed n pi) := by
  unfold piperead
  split_ifs
  · exact .nil h
  · exact .nil h
  · exact pipereadCopy_ok dst _ 0 h

/-- The copying loop returns at least the `i` it started with. -/
theorem pipereadCopy_ends (dst : Nat → Bool) (k : Nat) (pi : Pipe) (i : Nat) :
    ∃ j, i ≤ j ∧ (pipereadCopy dst k pi i).ends = .ret (j : Nat) := by
  induction k generalizing pi i with
  | zero => exact ⟨i, Nat.le_refl _, rfl⟩
  | succ k ih =>
      unfold pipereadCopy
      split_ifs
      · exact ⟨i, Nat.le_refl _, rfl⟩
      · obtain ⟨j, hj, he⟩ := ih { pi with nread := (pi.nread + 1) % UINT } (i + 1)
        exact ⟨j, by omega, he⟩
      · exact ⟨i, Nat.le_refl _, rfl⟩

/-- `piperead` returns `0` only if the pipe was empty and the write end closed. -/
theorem piperead_zero {dst : Nat → Bool} {killed : Bool} (hn : 0 < n) (hdst : dst 0)
    (h : (piperead dst killed n pi).ends = .ret 0) :
    pi.writeopen = false ∧ (piperead dst killed n pi).pipe = pi ∧ pi.nread = pi.nwrite := by
  obtain ⟨k, hk⟩ : ∃ k, n.toNat = k + 1 := ⟨n.toNat - 1, by omega⟩
  unfold piperead at h ⊢
  split_ifs at h ⊢ with he hkill
  · cases h
  · rw [hk] at h ⊢
    unfold pipereadCopy at h ⊢
    split_ifs at h ⊢ with hempty
    · exact ⟨by simpa [hempty] using he, rfl, hempty⟩
    · obtain ⟨j, hj, hends⟩ :=
        pipereadCopy_ends dst k { pi with nread := (pi.nread + 1) % UINT } (0 + 1)
      have hj0 : Ends.ret (j : Int) = Ends.ret 0 := hends.symm.trans h
      injection hj0 with hj0
      omega

/-! ## The invariant -/

/-- Where a writer of `n` bytes can be that has stored `k` bytes. -/
inductive At (n : Int) (k : Nat) : Pc → Prop
  | ready : At n k (.ready k)
  | asleep : At n k (.asleep k)
  | done : At n k (.returned k)
  | failed : 0 < n → At n k (.returned (-1))

/-- The bytes that a call stored. -/
def bytesOf {ι : Type} [DecidableEq ι] (c : ι) (stored : List (ι × UInt8)) : List UInt8 :=
  (stored.filter (·.1 = c)).map (·.2)

section

variable {ι : Type} [DecidableEq ι] {call : ι → Call} {s s' : State ι} {c : ι} {n : Int}
  {src : Nat → Option UInt8} {dst : Nat → Bool}

theorem bytesOf_append (c : ι) (l l' : List (ι × UInt8)) :
    bytesOf c (l ++ l') = bytesOf c l ++ bytesOf c l' := by
  simp [bytesOf]

theorem bytesOf_map (c : ι) (bs : List UInt8) : bytesOf c (bs.map (c, ·)) = bs := by
  simp [bytesOf, List.filter_map, Function.comp_def]

theorem bytesOf_map_of_ne {d : ι} (h : c ≠ d) (bs : List UInt8) :
    bytesOf d (bs.map (c, ·)) = [] := by
  simp [bytesOf, List.filter_map, Function.comp_def, h]

/-- What holds in every state. -/
structure Inv (call : ι → Call) (s : State ι) : Prop where
  holds : s.pipe.Holds (s.stored.map (·.2)) s.taken.length
  taken_eq : s.taken = (s.stored.map (·.2)).take s.taken.length
  writers : ∀ c n src, call c = .write n src →
    FromSrc src (bytesOf c s.stored) ∧ At n (bytesOf c s.stored).length (s.pc c)

theorem Inv.init (data : Bytes.Region PIPESIZE) : Inv call (init ι data) :=
  ⟨Ring.Holds.init _, rfl, fun _ _ _ _ => ⟨fun _ hk => absurd hk (Nat.not_lt_zero _), .ready⟩⟩

omit [DecidableEq ι] in
theorem At.wakeReaders {k : Nat} {pc : ι → Pc} (h : At n k (pc c)) :
    At n k (wakeReaders call pc c) := by
  unfold Pipe.wakeReaders
  split
  · rename_i hpc
    rw [hpc] at h
    cases h
    exact .ready
  · exact h

omit [DecidableEq ι] in
theorem At.wakeWriters {k : Nat} {pc : ι → Pc} (h : At n k (pc c)) :
    At n k (wakeWriters call pc c) := by
  unfold Pipe.wakeWriters
  split
  · rename_i hpc
    rw [hpc] at h
    cases h
    exact .ready
  · exact h

/-- The writers stay where they were, or are woken. -/
theorem Inv.woken {pipe : Pipe} {pc : ι → Pc} (h : Inv call s)
    (hpipe : pipe.Holds (s.stored.map (·.2)) s.taken.length)
    (hpc : ∀ c n k, At n k (s.pc c) → At n k (pc c)) :
    Inv call { s with pipe := pipe, pc := pc } :=
  ⟨hpipe, h.taken_eq, fun c n src hc =>
    ⟨(h.writers c n src hc).1, hpc c n _ (h.writers c n src hc).2⟩⟩

theorem FromSrc.append {bs bs' : List UInt8} (h : FromSrc src bs)
    (h' : ∀ k, k < bs'.length → bs'[k]? = src (bs.length + k)) : FromSrc src (bs ++ bs') := by
  intro k hk
  rw [List.length_append] at hk
  by_cases hlt : k < bs.length
  · rw [List.getElem?_append_left hlt]
    exact h k hlt
  · rw [List.getElem?_append_right (by omega), h' _ (by omega)]
    congr 1
    omega

/-- A writer stores what a stretch of `pipewrite` stored. -/
theorem Inv.wrote {i : Nat} {w : Wrote} {pc : ι → Pc} (h : Inv call s) (hc : call c = .write n src)
    (hi : s.pc c = .ready i) (hw : w.Ok src n s.pipe i (s.stored.map (·.2)) s.taken.length)
    (hpc : ∀ c n k, At n k (s.pc c) → At n k (pc c)) :
    Inv call { s with
      pipe := w.pipe
      pc := Function.update pc c (w.ends.pc w.i)
      stored := s.stored ++ w.bytes.map (c, ·) } := by
  have hle := h.holds.le
  refine ⟨?_, ?_, fun d m srd hd => ?_⟩
  · simpa [Function.comp_def] using hw.holds
  · simp only [List.map_append]
    rw [List.take_append_of_le_length hle]
    exact h.taken_eq
  · obtain ⟨hsrc, hat⟩ := h.writers d m srd hd
    simp only [bytesOf_append]
    by_cases hdc : d = c
    · subst hdc
      rw [hc] at hd
      cases hd
      rw [hi] at hat
      cases hat
      rw [bytesOf_map, Function.update_self]
      refine ⟨hsrc.append hw.src_eq, ?_⟩
      rw [List.length_append, ← hw.i_eq]
      rcases hw.ends with he | he | ⟨he, hn⟩
      · rw [he]
        exact .asleep
      · rw [he]
        exact .done
      · rw [he]
        exact .failed hn
    · rw [bytesOf_map_of_ne (Ne.symm hdc), List.append_nil, Function.update_of_ne hdc]
      exact ⟨hsrc, hpc d m _ hat⟩

/-- A reader takes out what a stretch of `piperead` took out. -/
theorem Inv.read {p : Pc} {r : Read} {pc : ι → Pc} (h : Inv call s) (hc : call c = .read n dst)
    (hr : r.Ok s.pipe (s.stored.map (·.2)) s.taken.length)
    (hpc : ∀ c n k, At n k (s.pc c) → At n k (pc c)) :
    Inv call { s with
      pipe := r.pipe
      pc := Function.update pc c p
      taken := s.taken ++ r.bytes } := by
  refine ⟨?_, ?_, fun d m srd hd => ?_⟩
  · simpa using hr.holds
  · simp only [List.length_append]
    rw [List.take_add, ← h.taken_eq, ← hr.bytes_eq]
  · have hdc : d ≠ c := by
      rintro rfl
      rw [hc] at hd
      cases hd
    simp only [Function.update_of_ne hdc]
    exact ⟨(h.writers d m srd hd).1, hpc d m _ (h.writers d m srd hd).2⟩

theorem Inv.step {a : Act ι} (h : Inv call s) (hs : step call s a = some s') : Inv call s' := by
  cases a with
  | run c killed =>
      cases hpc : s.pc c with
      | asleep i => simp [Pipe.step, hpc] at hs
      | returned r => simp [Pipe.step, hpc] at hs
      | ready i =>
          cases hc : call c with
          | write n src =>
              simp only [Pipe.step, hpc, hc, Option.some.injEq] at hs
              subst hs
              have hw : Wrote.Ok src n s.pipe i _ _ _ :=
                pipewrite_ok src killed n (n - i).toNat i h.holds (by omega)
              refine h.wrote hc hpc hw fun d m k hat => ?_
              split_ifs
              · exact hat.wakeReaders
              · exact hat
          | read n dst =>
              simp only [Pipe.step, hpc, hc, Option.some.injEq] at hs
              subst hs
              refine h.read hc (piperead_ok dst (killed 0) n h.holds) fun d m k hat => ?_
              split_ifs
              · exact hat.wakeWriters
              · exact hat
  | close w =>
      cases w with
      | true =>
          cases hs
          exact h.woken h.holds fun _ _ _ hat => hat.wakeReaders
      | false =>
          cases hs
          exact h.woken h.holds fun _ _ _ hat => hat.wakeWriters
  | kill c =>
      cases hpc : s.pc c with
      | ready i =>
          simp only [Pipe.step, hpc, Option.some.injEq] at hs
          exact hs ▸ h
      | returned r =>
          simp only [Pipe.step, hpc, Option.some.injEq] at hs
          exact hs ▸ h
      | asleep i =>
          simp only [Pipe.step, hpc, Option.some.injEq] at hs
          subst hs
          refine h.woken h.holds fun d m k hat => ?_
          by_cases hd : d = c
          · subst hd
            rw [hpc] at hat
            cases hat
            rw [Function.update_self]
            exact .ready
          · rw [Function.update_of_ne hd]
            exact hat

/-- A reader of `n > 0` bytes that returns `0` found the pipe empty and closed. -/
theorem Inv.read_zero {killed : Nat → Bool} (h : Inv call s) (hc : call c = .read n dst)
    (hn : 0 < n) (hdst : dst 0) (hs : Pipe.step call s (.run c killed) = some s')
    (h0 : s'.pc c = .returned 0) :
    s'.pipe.writeopen = false ∧ s'.taken = s'.stored.map (·.2) := by
  have h' := h.step hs
  cases hpc : s.pc c with
  | asleep i => simp [Pipe.step, hpc] at hs
  | returned r => simp [Pipe.step, hpc] at hs
  | ready i =>
      simp only [Pipe.step, hpc, hc, Option.some.injEq] at hs
      subst hs
      have h0 : Ends.pc i (piperead dst (killed 0) n s.pipe).ends = .returned 0 := by
        simpa using h0
      have hends : (piperead dst (killed 0) n s.pipe).ends = .ret 0 := by
        cases he : (piperead dst (killed 0) n s.pipe).ends with
        | sleep => simp [he, Ends.pc] at h0
        | ret r => simpa [he, Ends.pc] using h0
      obtain ⟨hopen, hpipe, hempty⟩ := piperead_zero hn hdst hends
      have hlen := (Ring.Holds.empty_iff h'.holds pipesize_lt).1 (by simpa [hpipe] using hempty)
      refine ⟨by rw [hpipe, hopen], ?_⟩
      have htaken := h'.taken_eq
      rw [hlen, List.take_length] at htaken
      exact htaken

/-- The pipe is a queue, for any calls in any order and any number of bytes. -/
theorem pipe_fifo (call : ι → Call) (data : Bytes.Region PIPESIZE) {as : List (Act ι)}
    (hr : Run.exec (Pipe.step call) (init ι data) as = some s) :
    s.taken <+: s.stored.map (·.2) ∧
    (s.pipe.nwrite + UINT - s.pipe.nread) % UINT ≤ PIPESIZE ∧
    (List.range ((s.pipe.nwrite + UINT - s.pipe.nread) % UINT)).map
        (fun j => s.pipe.data.get ((s.pipe.nread + j) % PIPESIZE)) =
      (s.stored.map (·.2)).drop s.taken.length ∧
    (∀ c n src, call c = .write n src → s.pc c = .returned n →
      (bytesOf c s.stored).map some = (List.range n.toNat).map src) ∧
    ∀ c n dst killed s', call c = .read n dst → 0 < n → (∀ i : Nat, i < n → dst i) →
      Pipe.step call s (.run c killed) = some s' → s'.pc c = .returned 0 →
      s'.pipe.writeopen = false ∧ s'.taken = s'.stored.map (·.2) := by
  have h : Inv call s :=
    Run.exec_invariant (fun _ _ _ h hs => h.step hs) (Inv.init data) hr
  have hcount := Ring.Holds.count h.holds pipesize_lt
  have hfits := h.holds.fits
  refine ⟨?_, ?_, ?_, fun c n src hc hpc => ?_, fun c n dst killed s' hc hn hdst hs h0 => ?_⟩
  · rw [h.taken_eq]
    exact List.take_prefix _ _
  · rw [hcount]
    omega
  · rw [hcount]
    exact Ring.Holds.contents h.holds pipesize_dvd
  · obtain ⟨hsrc, hat⟩ := h.writers c n src hc
    have hlen : n.toNat = (bytesOf c s.stored).length := by
      rw [hpc] at hat
      cases hat with
      | done => rfl
      | failed hn => exact absurd hn (by decide)
    apply List.ext_getElem?
    intro k
    rw [List.getElem?_map, List.getElem?_map, hlen]
    by_cases hk : k < (bytesOf c s.stored).length
    · rw [List.getElem?_range hk, Option.map_some, ← hsrc k hk, List.getElem?_eq_getElem hk]
      rfl
    · rw [List.getElem?_eq_none (by omega), List.getElem?_eq_none (by simpa using hk)]
      rfl
  · exact h.read_zero hc hn (hdst 0 (by omega)) hs h0

end

/-- A writer of two bytes and a reader of one. -/
def twoCalls : Bool → Call
  | true => .write 2 fun i => some (if i = 0 then 7 else 9)
  | false => .read 1 fun _ => true

/-- The reader starts first. -/
def runBoth : List (Act Bool) :=
  [.run false fun _ => false, .run true fun _ => false, .run false fun _ => false]

/-- The reader sleeps until the writer has stored both bytes, and takes the first. -/
theorem pipe_fifo_twoCalls : ∃ s,
    Run.exec (step twoCalls) (init Bool fun _ => 0) runBoth = some s ∧
    s.pc true = .returned 2 ∧ s.taken = [7] ∧
    (bytesOf true s.stored).map some = [some 7, some 9] := by
  have hr : Run.exec (step twoCalls) (init Bool fun _ => 0) runBoth = some _ := rfl
  refine ⟨_, hr, rfl, rfl, ?_⟩
  exact (pipe_fifo twoCalls (fun _ => 0) hr).2.2.2.1 true 2 _ rfl rfl

end Xv6.Pipe
