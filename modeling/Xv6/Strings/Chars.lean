import Xv6.Lib.Bytes
import Xv6.Strings.Memmove

/-!
# Strings in memory

`strchr` of `user/ulib.c`, the string at an address, and what it means that memory holds a list
of bytes.  The loops have a bound on their rounds, and a loop that reaches it has not found the
NUL.
-/

namespace Xv6.Strings

open Move

/-- The first occurrence of `c` in the string, or `some none` for the null pointer. -/
def strchr (m : Mem) (c : UInt8) : Nat → Addr → Option (Option Addr)
  | 0, _ => none
  | fuel + 1, s =>
      if m s = 0 then some none
      else if m s = c then some (some s)
      else strchr m c fuel (s + 1)

/-- `n` bytes from an address on. -/
def load (m : Mem) : Nat → Addr → List UInt8
  | 0, _ => []
  | n + 1, a => m a :: load m n (a + 1)

/-- The string at an address, if its NUL is in reach. -/
def cString (m : Mem) (fuel : Nat) (a : Addr) : Option (List UInt8) :=
  if 0 ∈ load m fuel a then some (Bytes.cString (load m fuel a)) else none

/-- Bytes stored from an address on. -/
def store (m : Mem) : Addr → List UInt8 → Mem
  | _, [] => m
  | a, b :: bs => store (Function.update m a b) (a + 1) bs

/-- The bytes are in memory from an address on. -/
def Holds (m : Mem) : Addr → List UInt8 → Prop
  | _, [] => True
  | a, b :: bs => m a = b ∧ Holds m (a + 1) bs

variable {m : Mem} {a q : Addr} {v c : UInt8} {xs ys : List UInt8} {fuel : Nat}

theorem add_ofNat_succ (a : Addr) (i : Nat) :
    a + BitVec.ofNat 64 (i + 1) = a + 1 + BitVec.ofNat 64 i := by
  rw [BitVec.ofNat_add]
  bv_omega

theorem add_length_cons (a : Addr) (x : UInt8) (xs : List UInt8) :
    a + BitVec.ofNat 64 (x :: xs).length = a + 1 + BitVec.ofNat 64 xs.length := by
  rw [List.length_cons, add_ofNat_succ]

/-! ## `Holds` -/

theorem holds_append :
    Holds m a (xs ++ ys) ↔ Holds m a xs ∧ Holds m (a + BitVec.ofNat 64 xs.length) ys := by
  induction xs generalizing a with
  | nil => simp [Holds]
  | cons x xs ih => rw [List.cons_append, Holds, Holds, ih, add_length_cons, and_assoc]

/-- A store behind the bytes. -/
theorem Holds.update (h : Holds m a xs) (hq : xs.length ≤ (q - a).toNat) :
    Holds (Function.update m q v) a xs := by
  induction xs generalizing a with
  | nil => trivial
  | cons x xs ih =>
      rw [List.length_cons] at hq
      have hne : a ≠ q := by
        rintro rfl
        rw [BitVec.sub_self, BitVec.toNat_zero] at hq
        omega
      refine ⟨?_, ih h.2 ?_⟩
      · rw [Function.update_of_ne hne]
        exact h.1
      · have hstep : (q - (a + 1)).toNat = (q - a).toNat - 1 := by bv_omega
        omega

theorem toNat_add_sub (a : Addr) {n : Nat} (hn : n < 2 ^ 64) :
    (a + BitVec.ofNat 64 n - a).toNat = n := by
  rw [BitVec.add_comm, BitVec.add_sub_cancel, BitVec.toNat_ofNat, Nat.mod_eq_of_lt hn]

/-- A byte is appended. -/
theorem Holds.snoc (h : Holds m a xs) (hn : xs.length < 2 ^ 64) :
    Holds (Function.update m (a + BitVec.ofNat 64 xs.length) v) a (xs ++ [v]) := by
  rw [holds_append]
  refine ⟨h.update ?_, ?_, trivial⟩
  · rw [toNat_add_sub a hn]
  · rw [Function.update_self]

/-- Bytes are appended. -/
theorem Holds.store (h : Holds m a xs) (ys : List UInt8) (hn : xs.length + ys.length ≤ 2 ^ 64) :
    Holds (store m (a + BitVec.ofNat 64 xs.length) ys) a (xs ++ ys) := by
  induction ys generalizing m xs with
  | nil =>
      rw [List.append_nil]
      exact h
  | cons y ys ih =>
      rw [List.length_cons] at hn
      have hsnoc := h.snoc (v := y) (by omega)
      have hnext : a + BitVec.ofNat 64 xs.length + 1 = a + BitVec.ofNat 64 (xs ++ [y]).length := by
        rw [List.length_append, List.length_singleton, BitVec.ofNat_add]
        bv_omega
      have hlist : xs ++ y :: ys = xs ++ [y] ++ ys := List.append_cons ..
      rw [Strings.store, hnext, hlist]
      exact ih hsnoc (by rw [List.length_append, List.length_singleton]; omega)

theorem Holds.load_eq (h : Holds m a xs) : load m xs.length a = xs := by
  induction xs generalizing a with
  | nil => rfl
  | cons x xs ih => rw [List.length_cons, load, h.1, ih h.2]

theorem load_add (m : Mem) (i j : Nat) (a : Addr) :
    load m (i + j) a = load m i a ++ load m j (a + BitVec.ofNat 64 i) := by
  induction i generalizing a with
  | zero => simp [load]
  | succ i ih =>
      rw [Nat.succ_add, load, load, ih, add_ofNat_succ, List.cons_append]

theorem holds_iff : Holds m a xs ↔
    ∀ i (hi : i < xs.length), m (a + BitVec.ofNat 64 i) = xs[i] := by
  induction xs generalizing a with
  | nil => simp [Holds]
  | cons x xs ih =>
      rw [Holds, ih]
      constructor
      · rintro ⟨h0, h⟩ i hi
        cases i with
        | zero => simpa using h0
        | succ i =>
            rw [add_ofNat_succ]
            exact h i (by simpa using hi)
      · intro h
        have h0 := h 0 (Nat.succ_pos _)
        rw [BitVec.add_zero] at h0
        refine ⟨h0, fun i hi => ?_⟩
        rw [← add_ofNat_succ]
        exact h (i + 1) (by simpa using hi)

/-- The bytes are moved. -/
theorem Holds.memmove {n : BitVec 32} {src : Addr} (h : Holds m src xs) (dst : Addr)
    (hlen : n.toNat = xs.length) (hn : 0 ≤ n.toInt) (hd : NoWrap dst n) (hs : NoWrap src n) :
    Holds (User.memmove dst src n m).2 dst xs := by
  rw [User.memmove_eq hd hs hn, hlen]
  have hle : xs.length ≤ 2 ^ 64 := by
    have := n.isLt
    omega
  rw [holds_iff] at h ⊢
  intro i hi
  exact (moved_inside hi hle).trans (h i hi)

/-! ## `strchr` -/

theorem strchr_found (h : Holds m a (xs ++ c :: ys)) (hnul : 0 ∉ xs) (hc : c ∉ xs) (hc0 : c ≠ 0)
    (hfuel : xs.length < fuel) :
    strchr m c fuel a = some (some (a + BitVec.ofNat 64 xs.length)) := by
  induction xs generalizing a fuel with
  | nil =>
      cases fuel with
      | zero => exact absurd hfuel (Nat.not_lt_zero _)
      | succ fuel => rw [strchr, h.1, if_neg hc0, if_pos rfl]; simp
  | cons x xs ih =>
      obtain ⟨hx0, hnul⟩ := List.ne_and_not_mem_of_not_mem_cons hnul
      obtain ⟨hxc, hc⟩ := List.ne_and_not_mem_of_not_mem_cons hc
      cases fuel with
      | zero => exact absurd hfuel (Nat.not_lt_zero _)
      | succ fuel =>
          rw [strchr, h.1, if_neg (Ne.symm hx0), if_neg (Ne.symm hxc), add_length_cons]
          exact ih h.2 hnul hc (Nat.lt_of_succ_lt_succ hfuel)

theorem strchr_none (h : Holds m a (xs ++ [0])) (hnul : 0 ∉ xs) (hc : c ∉ xs)
    (hfuel : xs.length < fuel) : strchr m c fuel a = some none := by
  induction xs generalizing a fuel with
  | nil =>
      cases fuel with
      | zero => exact absurd hfuel (Nat.not_lt_zero _)
      | succ fuel => rw [strchr, h.1, if_pos rfl]
  | cons x xs ih =>
      obtain ⟨hx0, hnul⟩ := List.ne_and_not_mem_of_not_mem_cons hnul
      obtain ⟨hxc, hc⟩ := List.ne_and_not_mem_of_not_mem_cons hc
      cases fuel with
      | zero => exact absurd hfuel (Nat.not_lt_zero _)
      | succ fuel =>
          rw [strchr, h.1, if_neg (Ne.symm hx0), if_neg (Ne.symm hxc)]
          exact ih h.2 hnul hc (Nat.lt_of_succ_lt_succ hfuel)

theorem cString_eq (h : Holds m a (xs ++ [0])) (hnul : 0 ∉ xs) (hfuel : xs.length < fuel) :
    cString m fuel a = some xs := by
  obtain ⟨k, rfl⟩ : ∃ k, fuel = (xs ++ [0]).length + k :=
    Nat.exists_eq_add_of_le (by rw [List.length_append]; exact hfuel)
  rw [cString, load_add, h.load_eq, if_pos (by simp), List.append_assoc, List.singleton_append,
    Bytes.cString_append hnul]

end Xv6.Strings
