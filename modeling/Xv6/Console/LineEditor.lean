import Xv6.Lib.Ring
import Xv6.Console.Input

/-!
# The console is a line editor

The line editor keeps the pending line and the committed characters as lists.  The indices
and the buffer of `cons` follow it, and the calls of `consoleread` take the committed
characters in order.
-/

namespace Xv6.Console

/-! ## The line editor -/

/-- The committed characters, of which the first `got` were taken, and the pending line. -/
structure Editor where
  committed : List UInt8
  pending : List UInt8
  got : Nat

namespace Editor

def empty : Editor := ⟨[], [], 0⟩

/-- The characters that are held. -/
def held (d : Editor) : Nat := d.committed.length + d.pending.length - d.got

def commit (d : Editor) : Editor :=
  { d with committed := d.committed ++ d.pending, pending := [] }

def append (d : Editor) (c : UInt8) : Editor := { d with pending := d.pending ++ [c] }

def receive (d : Editor) (c : UInt8) : Editor :=
  if c = ctrl 'P' ∨ c = 0 then d
  else if c = ctrl 'U' then { d with pending := [] }
  else if c = ctrl 'H' ∨ c = DEL then { d with pending := d.pending.dropLast }
  else if d.held = INPUT_BUF_SIZE then d
  else
    let c := if c = CR then LF else c
    if c = LF ∨ c = ctrl 'D' ∨ (d.append c).held = INPUT_BUF_SIZE then (d.append c).commit
    else d.append c

def take (d : Editor) (n : Nat) : Editor := { d with got := d.got + n }

def next {ι : Type} (d : Editor) : Event ι → Editor
  | .received c => d.receive c
  | .took _ _ => d.take 1

/-- The line editor after some events. -/
def after {ι : Type} (es : List (Event ι)) : Editor := es.foldl next empty

/-- What was committed stays. -/
theorem committed_receive (d : Editor) (c : UInt8) : d.committed <+: (d.receive c).committed := by
  unfold receive
  generalize (if c = CR then LF else c) = c'
  dsimp only
  split_ifs
  · exact List.prefix_rfl
  · exact List.prefix_rfl
  · exact List.prefix_rfl
  · exact List.prefix_rfl
  · exact List.prefix_append _ _
  · exact List.prefix_rfl

theorem got_receive (d : Editor) (c : UInt8) : (d.receive c).got = d.got := by
  unfold receive
  generalize (if c = CR then LF else c) = c'
  dsimp only
  split_ifs <;> rfl

theorem after_append {ι : Type} (es es' : List (Event ι)) :
    after (es ++ es') = es'.foldl next (after es) := List.foldl_append

theorem committed_foldl {ι : Type} (d : Editor) (es : List (Event ι)) :
    d.committed <+: (es.foldl next d).committed := by
  induction es generalizing d with
  | nil => exact List.prefix_rfl
  | cons e es ih =>
      refine List.IsPrefix.trans ?_ (ih _)
      cases e with
      | received c => exact d.committed_receive c
      | took i c => exact List.prefix_rfl

theorem foldl_took {ι : Type} (d : Editor) (i : ι) (bs : List UInt8) :
    (bs.map (Event.took i)).foldl next d = d.take bs.length := by
  induction bs generalizing d with
  | nil => rfl
  | cons c bs ih =>
      rw [List.map_cons, List.foldl_cons, ih]
      simp only [next, take, List.length_cons, Editor.mk.injEq, true_and]
      omega

end Editor

/-! ## `cons` follows the line editor -/

theorem size_lt : INPUT_BUF_SIZE < UINT := by decide

theorem size_dvd : INPUT_BUF_SIZE ∣ UINT := by decide

/-- One step back. -/
theorem diff_one (a : Nat) : diff ((a + 1) % UINT) 1 = a % UINT := by
  unfold diff UINT
  omega

/-- `cons` when the line editor is `d`. -/
structure Follows (k : Cons) (d : Editor) : Prop where
  ring : Ring.Holds INPUT_BUF_SIZE UINT k.buf.get k.r k.e (d.committed ++ d.pending) d.got
  w_eq : k.w = d.committed.length % UINT
  got_le : d.got ≤ d.committed.length
  /-- A line feed ends the line. -/
  line : LF ∉ d.pending

namespace Follows

variable {k : Cons} {d : Editor} {line : List UInt8} {c : UInt8}

/-- The committed characters. -/
theorem committed (h : Follows k d) :
    Ring.Holds INPUT_BUF_SIZE UINT k.buf.get k.r k.w d.committed d.got := by
  rw [h.w_eq]
  exact h.ring.unput h.got_le

theorem diff_e_r (h : Follows k d) : diff k.e k.r = d.held := by
  have hc := h.ring.count size_lt
  rwa [List.length_append] at hc

theorem diff_w_r (h : Follows k d) : diff k.w k.r = d.committed.length - d.got :=
  h.committed.count size_lt

theorem held_le (h : Follows k d) : d.held ≤ INPUT_BUF_SIZE := by
  have hf := h.ring.fits
  rw [List.length_append] at hf
  unfold Editor.held
  omega

theorem e_eq_w (h : Follows k d) : k.e = k.w ↔ d.pending = [] := by
  have hf := h.ring.fits
  have hlt := size_lt
  have hle := h.got_le
  rw [List.length_append] at hf
  rw [h.ring.w_eq, h.w_eq, List.length_append]
  constructor
  · intro he
    have := Ring.eq_of_mod_eq (Nat.le_add_right _ _) (by omega) he.symm
    exact List.length_eq_zero_iff.mp (by omega)
  · intro hp
    rw [hp, List.length_nil, Nat.add_zero]

/-- The last character of the line is deleted. -/
theorem erase (h : Follows k d) (hp : d.pending = line ++ [c]) :
    Follows { k with e := diff k.e 1 } { d with pending := line } := by
  have hring := h.ring
  have hlen : (d.committed ++ d.pending).length = (d.committed ++ line).length + 1 := by
    simp [hp]
    omega
  have he : diff k.e 1 = (d.committed ++ line).length % UINT := by
    rw [hring.w_eq, hlen, diff_one]
  rw [hp, ← List.append_assoc] at hring
  refine ⟨?_, h.w_eq, h.got_le, fun hm => h.line ?_⟩
  · show Ring.Holds INPUT_BUF_SIZE UINT k.buf.get k.r (diff k.e 1) _ d.got
    rw [he]
    exact hring.unput (by rw [List.length_append]; exact Nat.le_add_right_of_le h.got_le)
  · rw [hp]
    exact List.mem_append_left _ hm

/-- The last character of the line, where `^U` looks for it. -/
theorem char_last (h : Follows k d) (hp : d.pending = line ++ [c]) : k.char (diff k.e 1) = c := by
  have hlen : (d.committed ++ d.pending).length = (d.committed ++ line).length + 1 := by
    simp [hp]
    omega
  have he : diff k.e 1 = (d.committed ++ line).length % UINT := by
    rw [h.ring.w_eq, hlen, diff_one]
  have hc := h.ring.cells (d.committed ++ line).length
    (by rw [List.length_append]; exact Nat.le_add_right_of_le h.got_le) (by omega)
  rw [hp, ← List.append_assoc, List.getElem?_concat_length] at hc
  rw [Cons.char, he, Nat.mod_mod_of_dvd _ size_dvd]
  exact (Option.some.inj hc).symm

theorem diff_e_w (h : Follows k d) : diff k.e k.w = d.pending.length := by
  have hf := h.ring.fits
  have hle := h.got_le
  rw [List.length_append] at hf
  have hlt : d.pending.length < UINT := by
    have := size_lt
    omega
  rw [h.ring.w_eq, h.w_eq, List.length_append]
  unfold diff
  unfold UINT at *
  omega

theorem killLine (fuel : Nat) : ∀ {k : Cons} {d : Editor}, Follows k d → d.pending.length ≤ fuel →
    Follows (k.killLine fuel) { d with pending := [] } := by
  induction fuel with
  | zero =>
      intro k d h hlen
      have hp : d.pending = [] := List.length_eq_zero_iff.mp (by omega)
      rw [← hp]
      exact h
  | succ fuel ih =>
      intro k d h hlen
      unfold Cons.killLine
      rcases List.eq_nil_or_concat d.pending with hp | ⟨line, c, hp⟩
      · rw [if_neg (fun hg => hg.1 (h.e_eq_w.mpr hp)), ← hp]
        exact h
      · rw [List.concat_eq_append] at hp
        have hc : k.char (diff k.e 1) ≠ LF := by
          rw [h.char_last hp]
          rintro rfl
          exact h.line (hp ▸ List.mem_append_right _ (List.mem_singleton_self _))
        have hne : k.e ≠ k.w := fun he => by
          have := h.e_eq_w.mp he
          simp [hp] at this
        rw [if_pos ⟨hne, hc⟩]
        rw [hp, List.length_append, List.length_singleton] at hlen
        have herase := h.erase hp
        have hk := ih herase (Nat.le_of_succ_le_succ hlen)
        exact hk

theorem put (h : Follows k d) (hroom : d.held < INPUT_BUF_SIZE) :
    Ring.Holds INPUT_BUF_SIZE UINT (k.put c).buf.get k.r (k.put c).e
      (d.committed ++ (d.pending ++ [c])) d.got := by
  have hle := h.got_le
  unfold Editor.held at hroom
  rw [← List.append_assoc]
  refine h.ring.put size_dvd (by rw [List.length_append]; omega) ?_ fun j _ hj => ?_
  · exact k.buf.get_write_self (Nat.mod_lt _ (by decide)) c
  · refine Bytes.Region.get_write_of_disjoint _ _ _ ?_
    simp only [List.length_cons, List.length_nil]
    omega

/-- `consoleintr` does what the line editor does. -/
theorem consoleintr (h : Follows k d) (c : UInt8) : Follows (k.consoleintr c).1 (d.receive c) := by
  unfold Cons.consoleintr Editor.receive
  by_cases hP : c = ctrl 'P'
  · rw [if_pos hP, if_pos (.inl hP)]
    exact h
  rw [if_neg hP]
  by_cases hU : c = ctrl 'U'
  · have h0 : ¬ (c = ctrl 'P' ∨ c = 0) := by
      rw [hU]
      decide
    rw [if_pos hU, if_neg h0, if_pos hU]
    exact killLine _ h h.diff_e_w.ge
  rw [if_neg hU]
  by_cases hH : c = ctrl 'H' ∨ c = DEL
  · have h0 : ¬ (c = ctrl 'P' ∨ c = 0) := by
      rcases hH with rfl | rfl <;> decide
    rw [if_pos hH, if_neg h0, if_neg hU, if_pos hH]
    rcases List.eq_nil_or_concat d.pending with hp | ⟨line, c', hp⟩
    · rw [if_neg (not_not_intro (h.e_eq_w.mpr hp)), hp]
      show Follows k { d with pending := [] }
      rw [← hp]
      exact h
    · rw [List.concat_eq_append] at hp
      have hne : k.e ≠ k.w := fun he => by
        have := h.e_eq_w.mp he
        simp [hp] at this
      rw [if_pos hne, hp, List.dropLast_concat]
      exact h.erase hp
  rw [if_neg hH]
  by_cases h0 : c = 0
  · rw [if_neg (fun hg => hg.1 h0), if_pos (.inr h0)]
    exact h
  rw [if_neg (show ¬ (c = ctrl 'P' ∨ c = 0) by simp [hP, h0]), if_neg hU, if_neg hH]
  have hle := h.held_le
  rw [h.diff_e_r]
  by_cases hfull : d.held = INPUT_BUF_SIZE
  · rw [if_neg (by omega), if_pos hfull]
    exact h
  have hroom : d.held < INPUT_BUF_SIZE := by omega
  rw [if_pos ⟨h0, hroom⟩, if_neg hfull]
  generalize (if c = CR then LF else c) = c'
  have hput := h.put (c := c') hroom
  have hcount : diff (k.put c').e (k.put c').r = (d.append c').held := by
    have := hput.count size_lt
    rwa [List.length_append] at this
  dsimp only
  rw [hcount]
  split_ifs with hcom
  · -- the whole line is committed
    refine ⟨?_, ?_, ?_, List.not_mem_nil⟩
    · show Ring.Holds _ _ _ _ _ ((d.committed ++ (d.pending ++ [c'])) ++ []) d.got
      rw [List.append_nil]
      exact hput
    · exact hput.w_eq
    · exact hput.le
  · refine ⟨hput, h.w_eq, h.got_le, fun hm => ?_⟩
    rcases List.mem_append.mp hm with hm | hm
    · exact h.line hm
    · exact hcom (.inl (List.mem_singleton.mp hm).symm)

/-! ## Reading -/

theorem r_eq_w (h : Follows k d) : k.r = k.w ↔ d.got = d.committed.length :=
  h.committed.empty_iff size_lt

/-- A committed character is taken. -/
theorem get (h : Follows k d) (hne : k.r ≠ k.w) :
    d.committed[d.got]? = some (k.char k.r) ∧
      Follows { k with r := (k.r + 1) % UINT } (d.take 1) := by
  have hlt : d.got < d.committed.length :=
    Nat.lt_of_le_of_ne h.got_le fun he => hne (h.r_eq_w.mpr he)
  refine ⟨(h.committed.get size_dvd hlt).1, (h.ring.get size_dvd ?_).2, h.w_eq, hlt, h.line⟩
  rw [List.length_append]
  exact Nat.lt_add_right _ hlt

/-- A character is put back. -/
theorem unget (h : Follows k d) : diff ((k.r + 1) % UINT) 1 = k.r := by
  rw [diff_one, h.ring.r_eq, Nat.mod_mod]

end Follows

/-- A character that ends a call. -/
def Ending (c : UInt8) : Prop := c = LF ∨ c = ctrl 'D'

/-- What a stretch of `consoleread` did. -/
structure Read.Ok (d : Editor) (r : Read) : Prop where
  follows : Follows r.cons (d.take r.bytes.length)
  bytes_eq : r.bytes = (d.committed.drop d.got).take r.bytes.length
  /-- It stops at the first line feed or `^D`. -/
  stops : ∀ c ∈ r.bytes.dropLast, ¬ Ending c
  /-- It sleeps when it has taken everything. -/
  sleeps : r.ends = .sleep → (∀ c ∈ r.bytes, ¬ Ending c) ∧
    d.got + r.bytes.length = d.committed.length

section

variable {k : Cons} {d : Editor} {n : Nat}

theorem Read.Ok.nil {e : Ends} (h : Follows k d) (he : e = .sleep → d.got = d.committed.length) :
    Read.Ok d ⟨k, n, [], e⟩ :=
  ⟨h, rfl, nofun, fun hs => ⟨nofun, he hs⟩⟩

/-- The next character is the last one. -/
theorem Read.Ok.last {v : Int} (h : Follows k d) (hne : k.r ≠ k.w) :
    Read.Ok d ⟨{ k with r := (k.r + 1) % UINT }, n, [k.char k.r], .ret v⟩ := by
  obtain ⟨hc, hf⟩ := h.get hne
  refine ⟨hf, ?_, nofun, nofun⟩
  obtain ⟨hlt, hc⟩ := List.getElem?_eq_some_iff.mp hc
  rw [List.drop_eq_getElem_cons hlt, hc]
  rfl

/-- The call goes on after the next character. -/
theorem Read.Ok.cons {r : Read} (h : Follows k d) (hne : k.r ≠ k.w) (hc : ¬ Ending (k.char k.r))
    (hr : Read.Ok (d.take 1) r) : Read.Ok d { r with bytes := k.char k.r :: r.bytes } := by
  obtain ⟨hget, -⟩ := h.get hne
  obtain ⟨hlt, hget⟩ := List.getElem?_eq_some_iff.mp hget
  have hadd : (d.take 1).take r.bytes.length = d.take (k.char k.r :: r.bytes).length := by
    simp only [Editor.take, List.length_cons, Editor.mk.injEq, true_and]
    omega
  refine ⟨hadd ▸ hr.follows, ?_, fun x hx => ?_, fun hs => ⟨fun x hx => ?_, ?_⟩⟩
  · have hb := hr.bytes_eq
    rw [List.drop_eq_getElem_cons hlt, List.length_cons, List.take_succ_cons, hget]
    exact congrArg _ hb
  · change x ∈ (k.char k.r :: r.bytes).dropLast at hx
    have hstops := hr.stops x
    cases hb : r.bytes with
    | nil =>
        rw [hb] at hx
        cases hx
    | cons y ys =>
        rw [hb] at hx hstops
        rw [List.dropLast_cons_cons] at hx
        rcases List.mem_cons.mp hx with rfl | hx
        · exact hc
        · exact hstops hx
  · rcases List.mem_cons.mp hx with rfl | hx
    · exact hc
    · exact (hr.sleeps hs).1 x hx
  · have h2 := (hr.sleeps hs).2
    simp only [Editor.take, List.length_cons] at h2 ⊢
    omega

theorem consoleread_ok (dst : Nat → Bool) (killed : Bool) (target n : Nat) :
    ∀ {k : Cons} {d : Editor}, Follows k d → Read.Ok d (consoleread dst killed target n k) := by
  induction n with
  | zero => exact fun h => .nil h nofun
  | succ n ih =>
      intro k d h
      unfold consoleread
      split
      · rename_i hempty
        split
        · exact .nil h nofun
        · exact .nil h fun _ => h.r_eq_w.mp hempty
      · rename_i hne
        dsimp only
        split_ifs with hD hback hdst hLF
        · rw [h.unget]
          exact .nil h nofun
        · exact .last h hne
        · exact .last h hne
        · exact .last h hne
        · exact .cons h hne (not_or_intro hLF hD) (ih (h.get hne).2)

end

/-! ## Runs -/

/-- The characters that were taken. -/
def Event.taken {ι : Type} : Event ι → Option UInt8
  | .received _ => none
  | .took _ c => some c

/-- The characters that a call took. -/
def Event.takenBy {ι : Type} [DecidableEq ι] (i : ι) : Event ι → Option UInt8
  | .received _ => none
  | .took j c => if j = i then some c else none

section

variable {ι : Type} [DecidableEq ι] {call : ι → Call} {s s' : State ι} {i : ι} {bs : List UInt8}
  {d : Editor} {n : Nat} {killed : Bool} {a : Act ι} {k : Cons}

omit [DecidableEq ι] in
theorem filterMap_taken (i : ι) (bs : List UInt8) :
    (bs.map (Event.took i)).filterMap Event.taken = bs := by
  rw [List.filterMap_map]
  exact List.filterMap_some

theorem filterMap_takenBy (i : ι) (bs : List UInt8) :
    (bs.map (Event.took i)).filterMap (Event.takenBy i) = bs := by
  rw [List.filterMap_map]
  simp [Function.comp_def, Event.takenBy]

theorem filterMap_takenBy_of_ne {j : ι} (h : i ≠ j) (bs : List UInt8) :
    (bs.map (Event.took i)).filterMap (Event.takenBy j) = [] := by
  simp [Event.takenBy, h]

/-- The characters `bs` of a call: the first line feed or `^D` is the last character and
the end of the call. -/
def Stops (bs : List UInt8) : Pc → Prop
  | .returned _ => ∀ c ∈ bs.dropLast, ¬ Ending c
  | _ => ∀ c ∈ bs, ¬ Ending c

structure Inv (s : State ι) : Prop where
  follows : Follows s.cons (Editor.after s.events)
  got : (Editor.after s.events).got = (s.events.filterMap Event.taken).length
  taken : s.events.filterMap Event.taken <+: (Editor.after s.events).committed
  stops : ∀ i, Stops (s.events.filterMap (Event.takenBy i)) (s.pc i)

theorem Stops.wake {p : Pc} (h : Stops bs p) : Stops bs p.wake := by
  cases p <;> exact h

/-- A call goes on with a stretch. -/
theorem Stops.append {r : Read} (h : Stops bs (.ready n)) (hr : r.Ok d) :
    Stops (bs ++ r.bytes) r.pc := by
  unfold Read.pc
  cases he : r.ends with
  | sleep =>
      intro c hc
      rcases List.mem_append.mp hc with hc | hc
      · exact h c hc
      · exact (hr.sleeps he).1 c hc
  | ret v =>
      intro c hc
      cases hb : r.bytes with
      | nil =>
          rw [hb, List.append_nil] at hc
          exact h c ((List.dropLast_sublist _).subset hc)
      | cons b bs' =>
          rw [List.dropLast_append_of_ne_nil (by rw [hb]; nofun)] at hc
          rcases List.mem_append.mp hc with hc | hc
          · exact h c hc
          · exact hr.stops c hc

theorem Inv.init (buf : Bytes.Region INPUT_BUF_SIZE) : Inv (init call buf) :=
  ⟨⟨Ring.Holds.init _, rfl, Nat.le_refl _, List.not_mem_nil⟩, rfl, List.prefix_rfl, fun _ => nofun⟩

/-- The characters of a stretch continue those taken before. -/
theorem prefix_append_of_eq {xs ys zs : List UInt8} (h : xs <+: zs)
    (hy : ys = (zs.drop xs.length).take ys.length) : xs ++ ys <+: zs := by
  obtain ⟨t, rfl⟩ := h
  rw [List.drop_left] at hy
  rw [hy]
  exact (List.prefix_append_right_inj xs).mpr (List.take_prefix _ _)

theorem step_run (hs : step call s (.run i killed) = some s') :
    ∃ n r, s.pc i = .ready n ∧ r = consoleread (call i).dst killed (call i).n.toNat n s.cons ∧
      s' = { s with
        cons := r.cons
        pc := Function.update s.pc i r.pc
        events := s.events ++ r.bytes.map (.took i) } := by
  simp only [step] at hs
  split at hs
  · rename_i n hpc
    cases hs
    exact ⟨n, _, hpc, rfl, rfl⟩
  · cases hs

theorem Inv.step (h : Inv s) (hs : step call s a = some s') : Inv s' := by
  cases a with
  | intr c =>
      cases hs
      have hafter : Editor.after (s.events ++ [.received c]) =
          (Editor.after s.events).receive c := Editor.after_append _ _
      have htaken : ∀ f : Event ι → Option UInt8, f (.received c) = none →
          (s.events ++ [Event.received c]).filterMap f = s.events.filterMap f := by
        intro f hf
        rw [List.filterMap_append, List.filterMap_cons_none hf, List.filterMap_nil, List.append_nil]
      refine ⟨?_, ?_, ?_, fun i => ?_⟩
      · rw [hafter]
        exact h.follows.consoleintr c
      · rw [hafter, Editor.got_receive, htaken _ rfl]
        exact h.got
      · rw [hafter, htaken _ rfl]
        exact h.taken.trans (Editor.committed_receive _ c)
      · rw [htaken (Event.takenBy i) rfl]
        show Stops _ ((if (s.cons.consoleintr c).2 then fun i => (s.pc i).wake else s.pc) i)
        split
        · exact (h.stops i).wake
        · exact h.stops i
  | run i killed =>
      obtain ⟨n, r, hpc, hr, rfl⟩ := step_run hs
      have hok : r.Ok (Editor.after s.events) := by
        rw [hr]
        exact consoleread_ok _ killed _ n h.follows
      have hafter : Editor.after (s.events ++ r.bytes.map (.took i)) =
          (Editor.after s.events).take r.bytes.length := by
        rw [Editor.after_append, Editor.foldl_took]
      refine ⟨?_, ?_, ?_, fun j => ?_⟩
      · rw [hafter]
        exact hok.follows
      · rw [hafter, List.filterMap_append, filterMap_taken, List.length_append, ← h.got]
        rfl
      · rw [hafter, List.filterMap_append, filterMap_taken]
        refine prefix_append_of_eq h.taken ?_
        rw [← h.got]
        exact hok.bytes_eq
      · rw [List.filterMap_append]
        show Stops _ (Function.update s.pc i r.pc j)
        by_cases hj : i = j
        · subst hj
          have hstops := h.stops i
          rw [hpc] at hstops
          rw [filterMap_takenBy, Function.update_self]
          exact hstops.append hok
        · rw [filterMap_takenBy_of_ne hj, List.append_nil, Function.update_of_ne (Ne.symm hj)]
          exact h.stops j
  | kill i =>
      cases hs
      refine ⟨h.follows, h.got, h.taken, fun j => ?_⟩
      show Stops _ (Function.update s.pc i (s.pc i).wake j)
      by_cases hj : j = i
      · subst hj
        rw [Function.update_self]
        exact (h.stops j).wake
      · rw [Function.update_of_ne hj]
        exact h.stops j

theorem Inv.exec {buf : Bytes.Region INPUT_BUF_SIZE} {as : List (Act ι)}
    (h : Run.exec (Console.step call) (Console.init call buf) as = some s) : Inv s :=
  Run.exec_invariant (fun _ _ _ hi hs => hi.step hs) (.init buf) h

/-- A call sleeps when it has taken everything that was committed. -/
theorem Inv.sleeps (h : Inv s) (hs : Console.step call s (.run i killed) = some s')
    (hn : s'.pc i = .asleep n) :
    (s'.events.filterMap Event.taken) = (Editor.after s'.events).committed := by
  have h' := h.step hs
  refine h'.taken.eq_of_length ?_
  rw [← h'.got]
  obtain ⟨m, r, hpc, hr, rfl⟩ := step_run hs
  have hok : r.Ok (Editor.after s.events) := by
    rw [hr]
    exact consoleread_ok _ killed _ m h.follows
  have hpc : Function.update s.pc i r.pc i = .asleep n := hn
  rw [Function.update_self, Read.pc] at hpc
  rw [Editor.after_append, Editor.foldl_took]
  cases he : r.ends with
  | sleep => exact (hok.sleeps he).2
  | ret v =>
      rw [he] at hpc
      cases hpc

/-- The events of a step come after those before. -/
theorem events_of_step (hs : step call s a = some s') : ∃ es, s'.events = s.events ++ es := by
  cases a with
  | intr c =>
      cases hs
      exact ⟨_, rfl⟩
  | run i killed =>
      obtain ⟨n, r, hpc, hr, rfl⟩ := step_run hs
      exact ⟨_, rfl⟩
  | kill i =>
      cases hs
      exact ⟨[], (List.append_nil _).symm⟩

/-- The cells from an index on. -/
def Cons.chars (k : Cons) (i n : Nat) : List UInt8 := (List.range n).map fun j => k.char (i + j)

theorem Follows.chars_committed (h : Follows k d) :
    k.chars k.r (diff k.w k.r) = d.committed.drop d.got := by
  rw [h.diff_w_r]
  exact h.committed.contents size_dvd

theorem Follows.chars_pending (h : Follows k d) : k.chars k.w (diff k.e k.w) = d.pending := by
  have hle := h.got_le
  have hle' : d.committed.length ≤ (d.committed ++ d.pending).length := by
    rw [List.length_append]
    omega
  have hc := (h.ring.skip hle hle').contents size_dvd
  rw [List.length_append, Nat.add_sub_cancel_left, List.drop_left, ← h.w_eq] at hc
  rw [h.diff_e_w]
  exact hc

/-- The indices stay in order.  The buffer holds the committed characters that were not
taken and then the pending line of the line editor, and what was taken is what it committed
first.  What is committed never changes.  A call ends with the first line feed or `^D`, and
it sleeps only when there is nothing left to take. -/
theorem line_discipline {buf : Bytes.Region INPUT_BUF_SIZE} {as : List (Act ι)}
    (h : Run.exec (step call) (init call buf) as = some s) :
    diff s.cons.w s.cons.r ≤ diff s.cons.e s.cons.r ∧
    diff s.cons.e s.cons.r ≤ INPUT_BUF_SIZE ∧
    s.events.filterMap Event.taken ++ s.cons.chars s.cons.r (diff s.cons.w s.cons.r) =
      (Editor.after s.events).committed ∧
    s.cons.chars s.cons.w (diff s.cons.e s.cons.w) = (Editor.after s.events).pending ∧
    (∀ a s', step call s a = some s' →
      (Editor.after s.events).committed <+: (Editor.after s'.events).committed) ∧
    (∀ i, Stops (s.events.filterMap (Event.takenBy i)) (s.pc i)) ∧
    ∀ i killed s' n, step call s (.run i killed) = some s' → s'.pc i = .asleep n →
      s'.events.filterMap Event.taken = (Editor.after s'.events).committed := by
  have hi := Inv.exec h
  have hf := hi.follows
  refine ⟨?_, ?_, ?_, hf.chars_pending, fun a s' hs => ?_, hi.stops,
    fun i killed s' n hs hn => hi.sleeps hs hn⟩
  · rw [hf.diff_w_r, hf.diff_e_r, Editor.held]
    omega
  · rw [hf.diff_e_r]
    exact hf.held_le
  · obtain ⟨rest, hrest⟩ := hi.taken
    rw [hf.chars_committed, ← hrest, hi.got, List.drop_left]
  · obtain ⟨es, hes⟩ := events_of_step hs
    rw [hes, Editor.after_append]
    exact Editor.committed_foldl _ es

end

/-- A reader sleeps and then gets the line that was typed with one mistake. -/
theorem line_discipline_oneLine :
    ∃ s : State Unit,
      Run.exec (step fun _ => ⟨10, fun _ => true⟩) (init (fun _ => ⟨10, fun _ => true⟩) fun _ => 0)
        [.run () false, .intr 97, .intr 98, .intr (ctrl 'H'), .intr CR, .intr 99, .run () false] =
        some s ∧
      s.pc () = .returned 2 ∧ s.events.filterMap Event.taken = [97, LF] ∧
      diff s.cons.e s.cons.r ≤ INPUT_BUF_SIZE := by
  obtain ⟨s, hs, hp⟩ := Run.exists_exec_of_check
    (show ((Run.exec (step fun _ => ⟨10, fun _ => true⟩)
      (init (fun _ => ⟨10, fun _ => true⟩) fun _ => 0)
      [.run () false, .intr 97, .intr 98, .intr (ctrl 'H'), .intr CR, .intr 99, .run () false]).any
      fun s => decide (s.pc () = .returned 2 ∧ s.events.filterMap Event.taken = [97, LF])) = true by
      decide +kernel)
  exact ⟨s, hs, hp.1, hp.2, (line_discipline hs).2.1⟩

end Xv6.Console
