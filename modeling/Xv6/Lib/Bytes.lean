import Mathlib

/-!
# Byte regions and little-endian numbers

A region is a fixed number of bytes.  `read` and `write` move byte lists out of
and into it, and `getLe` and `setLe` do the same for numbers of a given width.
A write that stays inside the region is read back exactly, and a read that does
not meet the written range does not see the write.  A string is the bytes before
the first NUL.
-/

namespace Bytes

/-- A region of `n` bytes. -/
abbrev Region (n : Nat) := Fin n → UInt8

variable {n i w : Nat}

/-- The byte at an offset, `0` outside the region. -/
def Region.get (r : Region n) (i : Nat) : UInt8 := if h : i < n then r ⟨i, h⟩ else 0

/-- `len` bytes from an offset on. -/
def Region.read (r : Region n) (off len : Nat) : List UInt8 :=
  (List.range len).map fun k => r.get (off + k)

/-- Store a list of bytes at an offset.  Bytes past the end are dropped. -/
def Region.write (r : Region n) (off : Nat) (bs : List UInt8) : Region n := fun i =>
  if off ≤ i.val then (bs[i.val - off]?).getD (r i) else r i

theorem Region.ext_get {r r' : Region n} (h : ∀ i < n, r.get i = r'.get i) : r = r' := by
  funext i
  have hi := h i.val i.isLt
  simpa [Region.get] using hi

@[simp] theorem Region.length_read (r : Region n) (off len : Nat) :
    (r.read off len).length = len := by
  simp [Region.read]

theorem Region.getElem?_read (r : Region n) (off len k : Nat) :
    (r.read off len)[k]? = if k < len then some (r.get (off + k)) else none := by
  by_cases h : k < len
  · simp [Region.read, h]
  · simp [Region.read, h]

theorem Region.get_write (r : Region n) (off : Nat) (bs : List UInt8) (hi : i < n) :
    (r.write off bs).get i =
      if off ≤ i then (bs[i - off]?).getD (r.get i) else r.get i := by
  simp [Region.get, Region.write, hi]

/-- A byte outside the written range keeps its value. -/
theorem Region.get_write_of_disjoint (r : Region n) (off : Nat) (bs : List UInt8)
    (h : i < off ∨ off + bs.length ≤ i) : (r.write off bs).get i = r.get i := by
  by_cases hi : i < n
  · rw [Region.get_write r off bs hi]
    by_cases ho : off ≤ i
    · have hl : bs.length ≤ i - off := by omega
      simp [ho, List.getElem?_eq_none hl]
    · simp [ho]
  · simp [Region.get, hi]

/-- A byte inside the written range is the byte written. -/
theorem Region.get_write_of_mem (r : Region n) {off k : Nat} {bs : List UInt8}
    (hk : k < bs.length) (hn : off + k < n) : (r.write off bs).get (off + k) = bs[k] := by
  rw [Region.get_write r off bs hn]
  simp [hk]

theorem Region.get_write_self (r : Region n) {off : Nat} (hoff : off < n) (b : UInt8) :
    (r.write off [b]).get off = b := by
  rw [Region.get_write r off [b] hoff]
  simp

/-- What is written inside the region is read back. -/
theorem Region.read_write (r : Region n) (off : Nat) (bs : List UInt8)
    (h : off + bs.length ≤ n) : (r.write off bs).read off bs.length = bs := by
  apply List.ext_getElem
  · simp
  · intro k hk hk'
    have hget := r.get_write_of_mem hk' (by omega : off + k < n)
    simpa [Region.read] using hget

/-- A read does not see a write to other offsets. -/
theorem Region.read_write_of_disjoint (r : Region n) (off : Nat) (bs : List UInt8) (a len : Nat)
    (h : a + len ≤ off ∨ off + bs.length ≤ a) :
    (r.write off bs).read a len = r.read a len := by
  apply List.ext_getElem
  · simp
  · intro k hk hk'
    have hk2 : k < len := by simpa using hk
    have hget := r.get_write_of_disjoint off bs (by omega : a + k < off ∨ off + bs.length ≤ a + k)
    simpa [Region.read] using hget

/-- The part of a sequence of fields of equal length that is one field. -/
theorem take_drop_flatMap : ∀ {m : Nat} (f : Fin m → List UInt8)
    (_ : ∀ i, (f i).length = w) (i : Fin m),
    (((List.finRange m).flatMap f).drop (w * i.val)).take w = f i
  | m + 1, f, hf, i => by
      have hw := hf 0
      rw [List.finRange_succ, List.flatMap_cons, List.flatMap_map]
      cases i using Fin.cases with
      | zero => simp [← hw]
      | succ i =>
          have ih := take_drop_flatMap (fun i : Fin m => f i.succ) (fun i => hf i.succ) i
          have hlen : w * i.succ.val = (f 0).length + w * i.val := by
            rw [hw, Fin.val_succ, Nat.mul_succ, Nat.add_comm]
          rw [hlen, List.drop_append, List.drop_of_length_le (by omega), List.nil_append,
            Nat.add_sub_cancel_left]
          exact ih

theorem length_flatMap_fields {m : Nat} (f : Fin m → List UInt8) (hf : ∀ i, (f i).length = w) :
    ((List.finRange m).flatMap f).length = m * w := by
  simp [List.length_flatMap, hf]

/-! ## Little-endian numbers -/

/-- The `w` low bytes of a number, lowest first. -/
def toLe : Nat → Nat → List UInt8
  | 0, _ => []
  | w + 1, v => UInt8.ofNat v :: toLe w (v / 256)

/-- The number a list of bytes stands for, lowest byte first. -/
def ofLe : List UInt8 → Nat
  | [] => 0
  | b :: bs => b.toNat + 256 * ofLe bs

@[simp] theorem length_toLe : ∀ w v : Nat, (toLe w v).length = w
  | 0, _ => rfl
  | w + 1, v => by simp [toLe, length_toLe w]

theorem ofLe_lt : ∀ bs : List UInt8, ofLe bs < 256 ^ bs.length
  | [] => by simp [ofLe]
  | b :: bs => by
      have hb := b.toNat_lt
      have ih := ofLe_lt bs
      simp only [ofLe, List.length_cons, Nat.pow_succ]
      omega

theorem ofLe_toLe : ∀ w v : Nat, ofLe (toLe w v) = v % 256 ^ w
  | 0, v => by simp [toLe, ofLe, Nat.mod_one]
  | w + 1, v => by
      have h : v % (256 * 256 ^ w) = v % 256 + 256 * (v / 256 % 256 ^ w) := Nat.mod_mul
      simp only [toLe, ofLe, ofLe_toLe w, UInt8.toNat_ofNat', Nat.pow_succ, Nat.reducePow]
      rw [Nat.mul_comm (256 ^ w) 256, h]

/-- The `w`-byte number at an offset. -/
def Region.getLe (r : Region n) (off w : Nat) : Nat := ofLe (r.read off w)

/-- Store a `w`-byte number at an offset. -/
def Region.setLe (r : Region n) (off w v : Nat) : Region n := r.write off (toLe w v)

theorem Region.getLe_lt (r : Region n) (off w : Nat) : r.getLe off w < 256 ^ w := by
  simpa [Region.getLe] using ofLe_lt (r.read off w)

/-- A number stored inside the region is read back modulo its width. -/
theorem Region.getLe_setLe (r : Region n) {off : Nat} (v : Nat) (h : off + w ≤ n) :
    (r.setLe off w v).getLe off w = v % 256 ^ w := by
  have hr := r.read_write off (toLe w v) (by simpa using h)
  rw [length_toLe] at hr
  rw [Region.getLe, Region.setLe, hr, ofLe_toLe]

/-- A number is not changed by storing another one elsewhere. -/
theorem Region.getLe_setLe_of_disjoint (r : Region n) {off a u : Nat} (v : Nat)
    (h : a + u ≤ off ∨ off + w ≤ a) : (r.setLe off w v).getLe a u = r.getLe a u := by
  have hr := r.read_write_of_disjoint off (toLe w v) a u (by simpa using h)
  rw [Region.getLe, Region.setLe, hr, Region.getLe]

/-! ## Two's complement numbers -/

/-- The signed reading of a `w`-byte number. -/
def toSigned (w v : Nat) : Int := if 2 * v < 256 ^ w then v else v - (256 ^ w : Nat)

theorem toSigned_of_small {v : Nat} (h : 2 * v < 256 ^ w) : toSigned w v = v := by
  rw [toSigned, if_pos h]

/-- The signed number of `w` bytes at an offset. -/
def Region.getInt (r : Region n) (off w : Nat) : Int := toSigned w (r.getLe off w)

/-! ## Strings -/

/-- The bytes of a string, which ends before its first NUL. -/
def cString (bs : List UInt8) : List UInt8 := bs.takeWhile (· ≠ 0)

theorem cString_append {xs : List UInt8} (h : 0 ∉ xs) (ys : List UInt8) :
    cString (xs ++ 0 :: ys) = xs := by
  have hpos : ∀ c ∈ xs, decide (c ≠ 0) = true := fun c hc =>
    decide_eq_true (ne_of_mem_of_not_mem hc h)
  rw [cString, List.takeWhile_append_of_pos hpos, List.takeWhile_cons_of_neg (by simp),
    List.append_nil]

end Bytes
