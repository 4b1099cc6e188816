import Xv6.Lib.Move

/-!
# The two `memmove`s

`memmove` of `kernel/string.c` and `memmove` of `user/ulib.c`.  The kernel copies downwards
only if the destination begins inside the source, the library whenever the source is not above
the destination.  Pointers are 64-bit numbers and pointer arithmetic wraps.  The size is a
`uint` in the kernel and an `int` in the library.
-/

namespace Xv6.Strings

open Move

/-- The memory, a byte for every address. -/
abbrev Mem := Addr → UInt8

/-- `memmove` of the kernel.  It returns `dst`. -/
def Kernel.memmove (dst src : Addr) (n : BitVec 32) (m : Mem) : Addr × Mem :=
  if n = 0 then
    (dst, m)
  else if src < dst ∧ src + n.setWidth 64 > dst then
    (dst, down n.toNat (dst + n.setWidth 64) (src + n.setWidth 64) m)
  else
    (dst, up n.toNat dst src m)

/-- `memmove` of the user library.  The loops do nothing if `n` is negative. -/
def User.memmove (dst src : Addr) (n : BitVec 32) (m : Mem) : Addr × Mem :=
  if src > dst then
    (dst, up n.toInt.toNat dst src m)
  else
    (dst, down n.toInt.toNat (dst + n.signExtend 64) (src + n.signExtend 64) m)

/-- The `n` bytes at `src` are now at `dst`, and the other bytes are as they were. -/
structure Moves (m m' : Mem) (dst src : Addr) (n : Nat) : Prop where
  inside : ∀ i < n, m' (dst + BitVec.ofNat 64 i) = m (src + BitVec.ofNat 64 i)
  outside : ∀ a, (∀ i < n, a ≠ dst + BitVec.ofNat 64 i) → m' a = m a

variable {m : Mem} {dst src : Addr} {n : BitVec 32}

theorem moves_moved {n : Nat} (hn : n ≤ 2 ^ 64) : Moves m (moved n dst src m) dst src n :=
  ⟨fun _ hi => moved_inside hi hn, fun _ ha => moved_outside ha⟩

/-- The range from `p` on does not wrap. -/
def NoWrap (p : Addr) (n : BitVec 32) : Prop := p.toNat + n.toNat ≤ 2 ^ 64

instance (p : Addr) (n : BitVec 32) : Decidable (NoWrap p n) :=
  inferInstanceAs (Decidable (_ ≤ _))

theorem Kernel.memmove_eq (hd : NoWrap dst n) (hs : NoWrap src n) :
    Kernel.memmove dst src n m = (dst, moved n.toNat dst src m) := by
  rw [NoWrap] at hd hs
  have hn : n.setWidth 64 = BitVec.ofNat 64 n.toNat := by
    rw [← BitVec.ofNat_toNat]
  rw [Kernel.memmove]
  split
  next h0 =>
    have hzero : n.toNat = 0 := by rw [h0]; rfl
    rw [hzero, moved_zero]
  next =>
    split
    next hov =>
      rw [hn, down_eq_moved]
      bv_omega
    next hno =>
      -- the source is not below the destination, or it ends before it
      rw [up_eq_moved]
      have hwidth : (n.setWidth 64).toNat = n.toNat := by
        rw [BitVec.toNat_setWidth]
        omega
      bv_omega

theorem User.memmove_eq (hd : NoWrap dst n) (hs : NoWrap src n) (hn : 0 ≤ n.toInt) :
    User.memmove dst src n m = (dst, moved n.toNat dst src m) := by
  rw [NoWrap] at hd hs
  have hmsb : n.msb = false := by
    rw [BitVec.toInt_eq_msb_cond] at hn
    by_contra hm
    rw [if_pos (by simpa using hm)] at hn
    have := n.isLt
    omega
  have hint : n.toInt.toNat = n.toNat := by
    rw [BitVec.toInt_eq_msb_cond, hmsb]
    rfl
  have hext : n.signExtend 64 = BitVec.ofNat 64 n.toNat := by
    rw [BitVec.signExtend_eq_setWidth_of_msb_false hmsb, ← BitVec.ofNat_toNat]
  rw [User.memmove, hint, hext]
  split
  next hgt =>
    rw [up_eq_moved]
    bv_omega
  next hle =>
    rw [down_eq_moved]
    bv_omega

/-- Both functions move the bytes, for ranges that overlap in any way, and they agree. -/
theorem memmove_overlap_safe (m : Mem) (dst src : Addr) (n : BitVec 32) (hd : NoWrap dst n)
    (hs : NoWrap src n) :
    Moves m (Kernel.memmove dst src n m).2 dst src n.toNat ∧
      (0 ≤ n.toInt → Moves m (User.memmove dst src n m).2 dst src n.toNat ∧
        User.memmove dst src n m = Kernel.memmove dst src n m) := by
  have hle : n.toNat ≤ 2 ^ 64 := by
    have := n.isLt
    omega
  rw [Kernel.memmove_eq hd hs]
  refine ⟨moves_moved hle, fun hn => ?_⟩
  rw [User.memmove_eq hd hs hn]
  exact ⟨moves_moved hle, rfl⟩

/-- Four bytes are moved up by one. -/
theorem memmove_overlap_safe_byOne : Moves (fun a => UInt8.ofBitVec (a.setWidth 8))
    (Kernel.memmove 1 0 4 fun a => UInt8.ofBitVec (a.setWidth 8)).2 1 0 4 :=
  (memmove_overlap_safe _ 1 0 4 (by decide) (by decide)).1

end Xv6.Strings
