import Xv6.Grep.Matcher
import Xv6.Strings.Chars

/-!
# The lines that `grep` writes

The function `grep` of `user/grep.c`.  It reads into the buffer `buf`, looks at the complete
lines in it and moves the rest to the front, where the next read goes on.  A `read` returns at
least one byte before the end of the input.  How many it returns is given with the call, so a
result for all of these is a result for all ways in which the input may come in pieces.

The pattern is a string outside the buffer.
-/

namespace Xv6.Grep

open Strings Move

/-- `'\n'`. -/
def NL : UInt8 := 10

/-- `sizeof(buf)`. -/
def BUFSIZE : Nat := 1024

/-! ## `user/grep.c` -/

/-- The number of bytes that `read` returns if it is asked for at most `k` and `left` bytes are
left. -/
def readSize (wish k left : Nat) : Nat := min (max 1 wish) (min k left)

/-- The inner loop of `grep`, with what was written so far.  It returns the memory and `p`. -/
def scanLines (pattern : List UInt8) :
    Nat → Mem → Addr → List (List UInt8) → Option (Mem × Addr × List (List UInt8))
  | 0, _, _, _ => none
  | fuel + 1, mem, p, out =>
      match strchr mem NL BUFSIZE p with
      | none => none
      | some none => some (mem, p, out)
      | some (some q) =>
          let mem := Function.update mem q 0
          match cString mem BUFSIZE p with
          | none => none
          | some line =>
              if matchRe pattern line then
                let mem := Function.update mem q NL
                scanLines pattern fuel mem (q + 1) (out ++ [load mem (q + 1 - p).toNat p])
              else
                scanLines pattern fuel mem (q + 1) out

/-- The outer loop of `grep`.  The bytes of the input that are left are given, and `i` is the
number of calls of `read` so far. -/
def grepLoop (pattern : List UInt8) (buf : Addr) (split : Nat → Nat) :
    Nat → Nat → Mem → Nat → List UInt8 → List (List UInt8) → Option (List (List UInt8))
  | 0, _, _, _, _, _ => none
  | fuel + 1, i, mem, m, input, out =>
      let n := readSize (split i) (BUFSIZE - m - 1) input.length
      if n = 0 then
        some out
      else
        let mem := store mem (buf + BitVec.ofNat 64 m) (input.take n)
        let m := m + n
        let mem := Function.update mem (buf + BitVec.ofNat 64 m) 0
        match scanLines pattern BUFSIZE mem buf out with
        | none => none
        | some (mem, p, out) =>
            if m > 0 then
              let m := m - (p - buf).toNat
              let mem := (User.memmove buf p (BitVec.ofNat 32 m) mem).2
              grepLoop pattern buf split fuel (i + 1) mem m (input.drop n) out
            else
              grepLoop pattern buf split fuel (i + 1) mem m (input.drop n) out

/-- `grep(pattern, fd)`, with the bytes that can be read from `fd`.  It returns what it wrote,
call by call. -/
def grep (pattern : List UInt8) (buf : Addr) (split : Nat → Nat) (fuel : Nat) (mem : Mem)
    (input : List UInt8) : Option (List (List UInt8)) :=
  grepLoop pattern buf split fuel 0 mem 0 input []

/-! ## Lines -/

/-- A line without its newline, which fits in the buffer with it. -/
structure Line (l : List UInt8) : Prop where
  nul : 0 ∉ l
  newline : NL ∉ l
  length : l.length + 1 ≤ BUFSIZE - 1

instance (l : List UInt8) : Decidable (Line l) :=
  decidable_of_iff (0 ∉ l ∧ NL ∉ l ∧ l.length + 1 ≤ BUFSIZE - 1)
    ⟨fun h => ⟨h.1, h.2.1, h.2.2⟩, fun h => ⟨h.nul, h.newline, h.length⟩⟩

/-- The lines, each with its newline. -/
def unlines (lines : List (List UInt8)) : List UInt8 := lines.flatMap (· ++ [NL])

/-- The lines that match, each with its newline. -/
def chosen (pattern : List UInt8) (lines : List (List UInt8)) : List (List UInt8) :=
  (lines.filter (matchRe pattern)).map (· ++ [NL])

variable {pattern l tail rest part : List UInt8} {lines : List (List UInt8)}
variable {out : List (List UInt8)} {mem : Mem} {buf p : Addr} {split : Nat → Nat} {fuel i k : Nat}

@[simp] theorem unlines_cons : unlines (l :: lines) = l ++ NL :: unlines lines := by
  simp [unlines]

theorem chosen_append (lines' : List (List UInt8)) :
    chosen pattern (lines ++ lines') = chosen pattern lines ++ chosen pattern lines' := by
  simp [chosen]

theorem length_le_unlines (lines : List (List UInt8)) : lines.length ≤ (unlines lines).length := by
  induction lines with
  | nil => exact Nat.le_refl 0
  | cons l lines ih =>
      rw [unlines_cons, List.length_append, List.length_cons, List.length_cons]
      omega

/-- Bytes without a newline before the end of the first line. -/
theorem length_le_of_eq (h : part ++ rest = l ++ NL :: tail) (hp : NL ∉ part) :
    part.length ≤ l.length := by
  by_contra hlt
  refine hp ?_
  have hget : (part ++ rest)[l.length]? = some NL := by
    rw [h]
    simp
  rw [List.getElem?_append_left (by omega)] at hget
  exact List.mem_of_getElem? hget

/-- The bytes in the buffer are complete lines and the beginning of the next one. -/
theorem exists_cut {content : List UInt8} (h : content ++ rest = unlines lines)
    (hl : ∀ l ∈ lines, NL ∉ l) :
    ∃ done todo tail, lines = done ++ todo ∧ content = unlines done ++ tail ∧ NL ∉ tail ∧
      tail ++ rest = unlines todo := by
  induction lines generalizing content with
  | nil =>
      obtain ⟨rfl, rfl⟩ := List.append_eq_nil_iff.mp h
      exact ⟨[], [], [], rfl, rfl, by simp, rfl⟩
  | cons l lines ih =>
      have hnl := hl l List.mem_cons_self
      rw [unlines_cons] at h
      rcases List.append_eq_append_iff.mp h with ⟨u, hu, hrest⟩ | ⟨u, hu, hrest⟩
      · -- the line is not complete
        refine ⟨[], l :: lines, content, rfl, rfl, fun hc => hnl ?_, by rw [h, unlines_cons]⟩
        rw [hu]
        exact List.mem_append_left _ hc
      · cases u with
        | nil =>
            rw [List.append_nil] at hu
            exact ⟨[], l :: lines, content, rfl, rfl, hu ▸ hnl, by rw [h, unlines_cons]⟩
        | cons x u =>
            obtain ⟨rfl, hnext⟩ := List.cons.inj hrest
            obtain ⟨done, todo, tail, rfl, rfl, htail, htodo⟩ :=
              ih hnext.symm fun l hm => hl l (List.mem_cons_of_mem _ hm)
            exact ⟨l :: done, todo, tail, rfl, by rw [hu, unlines_cons, List.append_assoc]; rfl,
              htail, htodo⟩

/-! ## The inner loop -/

theorem scanLines_spec (pattern : List UInt8) (fuel : Nat) (out : List (List UInt8))
    (h : Holds mem p (unlines lines ++ (tail ++ [0])))
    (hl : ∀ l ∈ lines, 0 ∉ l ∧ NL ∉ l) (hnul : 0 ∉ tail) (hnl : NL ∉ tail)
    (hlen : (unlines lines).length + tail.length < BUFSIZE) (hfuel : lines.length < fuel) :
    ∃ mem', scanLines pattern fuel mem p out =
        some (mem', p + BitVec.ofNat 64 (unlines lines).length, out ++ chosen pattern lines) ∧
      Holds mem' (p + BitVec.ofNat 64 (unlines lines).length) (tail ++ [0]) := by
  have hsize : BUFSIZE = 1024 := rfl
  induction lines generalizing mem p out fuel with
  | nil =>
      cases fuel with
      | zero => exact absurd hfuel (Nat.not_lt_zero _)
      | succ fuel =>
          have hp : p + BitVec.ofNat 64 (unlines []).length = p := BitVec.add_zero p
          rw [hp]
          refine ⟨mem, ?_, h⟩
          have hend : strchr mem NL BUFSIZE p = some none :=
            strchr_none h hnul hnl (by omega)
          rw [scanLines, hend]
          exact congrArg (fun o => some (mem, p, o)) (List.append_nil out).symm
  | cons l lines ih =>
      cases fuel with
      | zero => exact absurd hfuel (Nat.not_lt_zero _)
      | succ fuel =>
          obtain ⟨hl0, hlnl⟩ := hl l List.mem_cons_self
          rw [unlines_cons, List.length_append, List.length_cons] at hlen
          rw [unlines_cons, List.append_assoc, List.cons_append] at h
          have hq : strchr mem NL BUFSIZE p = some (some (p + BitVec.ofNat 64 l.length)) :=
            strchr_found h hl0 hlnl (by decide) (by omega)
          obtain ⟨hline, hNL, hrest⟩ := holds_append.mp h
          have hstr : cString (Function.update mem (p + BitVec.ofNat 64 l.length) 0) BUFSIZE p =
              some l := cString_eq (hline.snoc (by omega)) hl0 (by omega)
          generalize hqdef : p + BitVec.ofNat 64 l.length = q at *
          have hnext : q + 1 + BitVec.ofNat 64 (unlines lines).length =
              p + BitVec.ofNat 64 (unlines (l :: lines)).length := by
            rw [← hqdef, unlines_cons, List.length_append, List.length_cons, BitVec.ofNat_add,
              BitVec.ofNat_add]
            bv_omega
          have hfuel := Nat.lt_of_succ_lt_succ hfuel
          have hl' : ∀ l ∈ lines, 0 ∉ l ∧ NL ∉ l := fun l hm => hl l (List.mem_cons_of_mem _ hm)
          rw [scanLines, hq]
          simp only
          rw [hstr]
          simp only
          rw [← hnext]
          by_cases hm : matchRe pattern l = true
          · -- the newline is put back, and the memory is as before
            have hback : Function.update (Function.update mem q 0) q NL = mem := by
              rw [Function.update_idem, ← hNL, Function.update_eq_self]
            have hwritten : load mem (q + 1 - p).toNat p = l ++ [NL] := by
              have hcount : (q + 1 - p).toNat = (l ++ [NL]).length := by
                have h1 : q + 1 = p + BitVec.ofNat 64 (l.length + 1) := by
                  rw [← hqdef, BitVec.ofNat_add]
                  bv_omega
                rw [h1, toNat_add_sub p (by omega), List.length_append, List.length_singleton]
              rw [hcount]
              refine Holds.load_eq (holds_append.mpr ⟨hline, ?_, trivial⟩)
              rw [hqdef]
              exact hNL
            obtain ⟨mem', hscan, hmem⟩ := ih fuel _ hrest hl' (by omega) hfuel
            refine ⟨mem', ?_, hmem⟩
            rw [if_pos hm, hback, hwritten, hscan, List.append_assoc]
            simp [chosen, hm]
          · have hbehind : (unlines lines ++ (tail ++ [0])).length ≤ (q - (q + 1)).toNat := by
              have hlast : (q - (q + 1)).toNat = 2 ^ 64 - 1 := by bv_omega
              rw [hlast, List.length_append, List.length_append, List.length_singleton]
              omega
            obtain ⟨mem', hscan, hmem⟩ :=
              ih fuel out (hrest.update hbehind) hl' (by omega) hfuel
            refine ⟨mem', ?_, hmem⟩
            rw [if_neg hm, hscan]
            simp [chosen, hm]

/-! ## The outer loop -/

/-- Before the end of the input `read` returns something. -/
theorem readSize_bounds (wish : Nat) {left : Nat} (hk : 0 < k) (hleft : 0 < left) :
    0 < readSize wish k left ∧ readSize wish k left ≤ k ∧ readSize wish k left ≤ left := by
  rw [readSize]
  omega

/-- The beginning of the next line is moved to the front. -/
theorem move_tail (hbuf : buf.toNat + BUFSIZE ≤ 2 ^ 64) (hk : k + tail.length ≤ BUFSIZE)
    (h : Holds mem (buf + BitVec.ofNat 64 k) tail) :
    Holds (User.memmove buf (buf + BitVec.ofNat 64 k) (BitVec.ofNat 32 tail.length) mem).2 buf
      tail := by
  have hsize : BUFSIZE = 1024 := rfl
  have h32 : (BitVec.ofNat 32 tail.length).toNat = tail.length := by
    rw [BitVec.toNat_ofNat, Nat.mod_eq_of_lt (by omega)]
  have hint : 0 ≤ (BitVec.ofNat 32 tail.length).toInt := by
    rw [BitVec.toInt_eq_toNat_of_lt (by omega)]
    omega
  refine h.memmove buf h32 hint ?_ ?_
  · rw [NoWrap, h32]
    omega
  · rw [NoWrap, h32, BitVec.toNat_add, BitVec.toNat_ofNat]
    omega

theorem mem_unlines {x : UInt8} (hx : x ≠ NL) : x ∈ unlines lines ↔ ∃ l ∈ lines, x ∈ l := by
  simp [unlines, hx]

/-- With the beginning of a line at the front of the buffer, `grep` writes the lines to come that
match. -/
theorem grepLoop_spec (pattern : List UInt8) (split : Nat → Nat) (i : Nat)
    (out : List (List UInt8)) (hbuf : buf.toNat + BUFSIZE ≤ 2 ^ 64) (hl : ∀ l ∈ lines, Line l)
    {input : List UInt8} (h : part ++ input = unlines lines) (hnl : NL ∉ part)
    (hmem : Holds mem buf part) (hfuel : input.length < fuel) :
    grepLoop pattern buf split fuel i mem part.length input out =
      some (out ++ chosen pattern lines) := by
  have hsize : BUFSIZE = 1024 := rfl
  induction fuel generalizing i mem part input out lines with
  | zero => exact absurd hfuel (Nat.not_lt_zero _)
  | succ fuel ih =>
      rw [grepLoop]
      simp only
      cases lines with
      | nil =>
          obtain ⟨rfl, rfl⟩ := List.append_eq_nil_iff.mp h
          simp [readSize, chosen]
      | cons l lines =>
          have hline := (hl l List.mem_cons_self).length
          rw [unlines_cons] at h
          have hpart := length_le_of_eq h hnl
          have hin : 0 < input.length := by
            have hlen := congrArg List.length h
            rw [List.length_append, List.length_append, List.length_cons] at hlen
            by_contra hz
            obtain rfl := List.eq_nil_of_length_eq_zero (Nat.eq_zero_of_not_pos hz)
            rw [List.append_nil] at h
            exact hnl (h ▸ List.mem_append_right _ List.mem_cons_self)
          rw [← unlines_cons] at h
          -- something is read, and it fits in the buffer
          generalize hn : readSize (split i) (BUFSIZE - part.length - 1) input.length = n
          obtain ⟨hn0, hnk, hni⟩ := hn ▸ readSize_bounds (split i)
            (show 0 < BUFSIZE - part.length - 1 by omega) hin
          have htake : (input.take n).length = n := List.length_take_of_le hni
          rw [if_neg (Nat.ne_of_gt hn0)]
          have hcontent := (hmem.store (input.take n) (by rw [htake]; omega)).snoc (v := 0)
            (by rw [List.length_append, htake]; omega)
          rw [List.length_append, htake] at hcontent
          have hsplit : part ++ input.take n ++ input.drop n = unlines (l :: lines) := by
            rw [List.append_assoc, List.take_append_drop, h]
          obtain ⟨done, todo, tail, hdone, hcut, htail, htodo⟩ :=
            exists_cut hsplit fun l hm => (hl l hm).newline
          have hl₁ : ∀ l' ∈ done, Line l' := fun l' hl' => hl l' (hdone ▸ List.mem_append_left _ hl')
          have hl₂ : ∀ l' ∈ todo, Line l' := fun l' hl' => hl l' (hdone ▸ List.mem_append_right _ hl')
          have hlen : (unlines done).length + tail.length = part.length + n := by
            rw [← List.length_append, ← hcut, List.length_append, htake]
          have hnul : 0 ∉ tail := by
            intro h0
            have hall : (0 : UInt8) ∈ unlines todo := htodo ▸ List.mem_append_left _ h0
            obtain ⟨l', hl', h0'⟩ := (mem_unlines (by decide)).mp hall
            exact (hl₂ l' hl').nul h0'
          rw [hcut, List.append_assoc] at hcontent
          have hcount := length_le_unlines done
          obtain ⟨mem', hscan, hrest⟩ := scanLines_spec pattern BUFSIZE out hcontent
            (fun l' hl' => ⟨(hl₁ l' hl').nul, (hl₁ l' hl').newline⟩) hnul htail (by omega) (by omega)
          rw [hscan]
          simp only
          rw [if_pos (by omega), toNat_add_sub buf (by omega)]
          have hm : part.length + n - (unlines done).length = tail.length := by omega
          rw [hm]
          have hmoved := move_tail hbuf (by omega) (holds_append.mp hrest).1
          have hdrop : (input.drop n).length < fuel := by
            rw [List.length_drop]
            omega
          rw [ih (i + 1) _ hl₂ htodo htail hmoved hdrop, hdone, chosen_append, List.append_assoc]

/-- `grep` returns, and it writes the lines that match, whatever the pieces are in which the
input is read. -/
theorem grep_lines (pattern : List UInt8) (lines : List (List UInt8)) (hl : ∀ l ∈ lines, Line l)
    (split : Nat → Nat) (mem : Mem) (buf : Addr) (hbuf : buf.toNat + BUFSIZE ≤ 2 ^ 64) :
    ∃ N, ∀ fuel ≥ N, grep pattern buf split fuel mem (unlines lines) =
      some ((lines.filter (matchRe pattern)).map (· ++ [NL])) := by
  refine ⟨(unlines lines).length + 1, fun fuel hfuel => ?_⟩
  have hempty : Holds mem buf [] := trivial
  exact grepLoop_spec pattern split 0 [] hbuf hl (List.nil_append _) (by simp) hempty hfuel

/-- Two lines, read byte by byte. -/
theorem grep_lines_byteByByte : ∃ N, ∀ fuel ≥ N,
    grep [98] 4096 (fun _ => 1) fuel (fun _ => 0) (unlines [[97, 98], [99]]) =
      some (([[97, 98], [99]].filter (matchRe [98])).map (· ++ [NL])) :=
  grep_lines [98] [[97, 98], [99]] (by decide) (fun _ => 1) (fun _ => 0) 4096 (by decide)

end Xv6.Grep
