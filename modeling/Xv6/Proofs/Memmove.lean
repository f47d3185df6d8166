import Xv6.User.Ulib
import Xv6.Lib.Moves
import Mathlib
/-!
# `memmove`

The kernel copies backwards only when the ranges overlap, the library whenever the
source is not above the destination.  Both orders read each byte before it is
overwritten.
-/

namespace Xv6

open Xv6.Lib List

variable {q : UInt64}

/-- The range of `n` bytes at `p` does not wrap around the address space. -/
def NoWrap (p : UInt64) (n : Nat) : Prop := p.toNat + n ≤ 2 ^ 64

instance (p : UInt64) (n : Nat) : Decidable (NoWrap p n) := Nat.decLe _ _

variable {dst src p : UInt64} {m : Xv6.Mem} {n i j : Nat}

theorem byteAt_toNat (h : NoWrap p n) (hi : i < n) : (byteAt p i).toNat = p.toNat + i := by
  unfold NoWrap at h
  rw [byteAt, UInt64.toNat_add, UInt64.toNat_ofNat', Nat.mod_eq_of_lt (by omega : i < 2 ^ 64)]
  exact Nat.mod_eq_of_lt (by omega)

theorem byteAt_ne (hp : NoWrap p n) (hq : NoWrap q n) (hi : i < n) (hj : j < n)
    (h : p.toNat + i ≠ q.toNat + j) : byteAt p i ≠ byteAt q j := by
  intro heq
  have := congrArg UInt64.toNat heq
  rw [byteAt_toNat hp hi, byteAt_toNat hq hj] at this
  exact h this

@[simp] theorem byteAt_zero (p : UInt64) : byteAt p 0 = p := UInt64.add_zero p

theorem byteAt_succ (p : UInt64) (i : Nat) : byteAt p (i + 1) = byteAt (p + 1) i := by
  unfold byteAt
  rw [UInt64.ofNat_add, UInt64.add_comm (UInt64.ofNat i), ← UInt64.add_assoc]
  rfl

theorem byteAt_sub_one (p : UInt64) (i : Nat) : byteAt p (i + 1) - 1 = byteAt p i := by
  unfold byteAt
  rw [UInt64.ofNat_add, ← UInt64.add_assoc]
  exact UInt64.add_sub_cancel ..

theorem copyUp_eq (n : Nat) (dst src : UInt64) (m : Mem) :
    copyUp n dst src m = copyCells (byteAt dst) (byteAt src) (List.range n) m := by
  induction n generalizing dst src m with
  | zero => rfl
  | succ n ih =>
    rw [copyUp, ih, range_succ_eq_map, copyCells, copyCells_map, byteAt_zero, byteAt_zero]
    simp only [Function.comp_def, byteAt_succ]

theorem copyDown_eq (n : Nat) (dst src : UInt64) (m : Mem) :
    copyDown n (byteAt dst n) (byteAt src n) m =
      copyCells (byteAt dst) (byteAt src) (List.range n).reverse m := by
  induction n generalizing m with
  | zero => rfl
  | succ n ih =>
    rw [copyDown, byteAt_sub_one, byteAt_sub_one, ih, range_succ, reverse_append]
    rfl

/-- Both orders are safe where they are used: upwards unless the destination starts
inside the source, downwards unless it starts below it. -/
theorem copyUp_moved (hd : NoWrap dst n) (hs : NoWrap src n)
    (h : dst.toNat ≤ src.toNat ∨ src.toNat + n ≤ dst.toNat) :
    Moved (· < n) (byteAt dst) (byteAt src) m (copyUp n dst src m) := by
  rw [copyUp_eq]
  have hfirst : ReadsFirst (byteAt dst) (byteAt src) (List.range n) := by
    refine pairwise_lt_range.imp_of_mem ?_
    intro i j hi hj hij
    rw [mem_range] at hi hj
    exact ⟨byteAt_ne hd hs hi hj (by omega), byteAt_ne hd hd hi hj (by omega)⟩
  simpa only [mem_range] using copyCells_moved hfirst m

theorem copyDown_moved (hd : NoWrap dst n) (hs : NoWrap src n) (h : src.toNat ≤ dst.toNat) :
    Moved (· < n) (byteAt dst) (byteAt src) m (copyDown n (byteAt dst n) (byteAt src n) m) := by
  rw [copyDown_eq]
  have hfirst : ReadsFirst (byteAt dst) (byteAt src) (List.range n).reverse := by
    refine (pairwise_reverse.mpr pairwise_lt_range).imp_of_mem ?_
    intro i j hi hj hij
    rw [mem_reverse, mem_range] at hi hj
    exact ⟨byteAt_ne hd hs hi hj (by omega), byteAt_ne hd hd hi hj (by omega)⟩
  simpa only [mem_reverse, mem_range] using copyCells_moved hfirst m

theorem Kernel.memmove_moved {n : UInt32} (hd : NoWrap dst n.toNat) (hs : NoWrap src n.toNat) :
    Moved (· < n.toNat) (byteAt dst) (byteAt src) m (Kernel.memmove dst src n m).2 := by
  unfold Kernel.memmove
  split_ifs with h
  · rw [← UInt64.ofNat_uInt32ToNat]
    exact copyDown_moved hd hs (UInt64.lt_iff_toNat_lt.mp h.1).le
  refine copyUp_moved hd hs ?_
  by_contra hno
  rw [not_or, not_le, not_le] at hno
  -- the source starts below the destination, so its end is below 2^64 and the test sees it
  have hend : (src + n.toUInt64).toNat = src.toNat + n.toNat := by
    rw [UInt64.toNat_add, UInt32.toNat_toUInt64]
    exact Nat.mod_eq_of_lt (Nat.lt_of_lt_of_le (by omega) hd)
  exact h ⟨UInt64.lt_iff_toNat_lt.mpr hno.1, UInt64.lt_iff_toNat_lt.mpr (hend ▸ hno.2)⟩

theorem Kernel.memmove_fst (dst src : UInt64) (n : UInt32) (m : Xv6.Mem) :
    (Kernel.memmove dst src n m).1 = dst := by
  unfold Kernel.memmove
  split_ifs <;> rfl

theorem User.memmove_moved {n : Int32} (hn : 0 ≤ n) (hd : NoWrap dst n.toInt.toNat)
    (hs : NoWrap src n.toInt.toNat) :
    Moved (· < n.toInt.toNat) (byteAt dst) (byteAt src) m (User.memmove dst src n m).2 := by
  unfold User.memmove
  split_ifs with h
  · exact copyUp_moved hd hs (.inl (UInt64.lt_iff_toNat_lt.mp h).le)
  have hoff : n.toInt64.toUInt64 = UInt64.ofNat n.toInt.toNat := by
    rw [← Int64.ofInt_int32ToInt]
    conv_lhs => rw [← Int.toNat_of_nonneg (Int32.le_iff_toInt_le.mp hn)]
    rfl
  simp only [hoff]
  exact copyDown_moved hd hs (UInt64.not_lt.mp h)

theorem User.memmove_fst (dst src : UInt64) (n : Int32) (m : Mem) :
    (User.memmove dst src n m).1 = dst := by
  unfold User.memmove
  split_ifs <;> rfl

/-- Both versions move the bytes and keep the others, whatever the overlap, and so they
agree. -/
theorem memmove_correct (m : Mem) (dst src : UInt64) :
    (∀ n : UInt32, NoWrap dst n.toNat → NoWrap src n.toNat →
      Moved (· < n.toNat) (byteAt dst) (byteAt src) m (Kernel.memmove dst src n m).2) ∧
    (∀ n : Int32, 0 ≤ n → NoWrap dst n.toInt.toNat → NoWrap src n.toInt.toNat →
      Moved (· < n.toInt.toNat) (byteAt dst) (byteAt src) m (User.memmove dst src n m).2) ∧
    ∀ (n : UInt32) (k : Int32), k.toInt = n.toNat → NoWrap dst n.toNat → NoWrap src n.toNat →
      Kernel.memmove dst src n m = User.memmove dst src k m := by
  refine ⟨fun n => Kernel.memmove_moved, fun n => User.memmove_moved, ?_⟩
  intro n k hk hd hs
  have hn : k.toInt.toNat = n.toNat := by rw [hk, Int.toNat_natCast]
  have hpos : 0 ≤ k := Int32.le_iff_toInt_le.mpr (hk ▸ Int.natCast_nonneg _)
  have hkernel := Kernel.memmove_moved (m := m) hd hs
  have huser := User.memmove_moved (m := m) hpos (hn ▸ hd) (hn ▸ hs)
  rw [hn] at huser
  apply Prod.ext
  · rw [Kernel.memmove_fst, User.memmove_fst]
  · exact hkernel.unique huser

/-- Three bytes moved up by one. -/
theorem memmove_up_one : let m : Mem := fun a => a.toUInt8
    (Kernel.memmove 11 10 3 m).2 (byteAt 11 2) = m (byteAt 10 2) ∧
      (User.memmove 11 10 3 m).2 (byteAt 11 2) = m (byteAt 10 2) ∧
      Kernel.memmove 11 10 3 m = User.memmove 11 10 3 m := by
  intro m
  obtain ⟨hkernel, huser, hsame⟩ := memmove_correct m 11 10
  exact ⟨(hkernel 3 (by decide) (by decide)).moved 2 (by decide),
    (huser 3 (by decide) (by decide) (by decide)).moved 2 (by decide),
    hsame 3 3 (by decide) (by decide) (by decide)⟩

end Xv6
