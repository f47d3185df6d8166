import Mathlib
/-!
# Numerals

The canonical numeral of a number in a base: no leading zeros, one digit for 0.
Numerals are compared by their length before their digits.  The last section says what C's
conversion of a signed to an unsigned 32-bit number does to the value.
-/

namespace Xv6.Lib

open List

/-- The digits of `n` in base `b`, the lowest first; 0 has one. -/
def lowDigits (b n : Nat) : List Nat := if n = 0 then [0] else Nat.digits b n

/-- `n` in base `b`, with `digit i` for the digit `i`. -/
def numeral {α : Type} (digit : Nat → α) (b n : Nat) : List α :=
  ((lowDigits b n).map digit).reverse

variable {b m n k : Nat}

theorem lowDigits_of_lt (h : n < b) : lowDigits b n = [n] := by
  unfold lowDigits
  split_ifs with h0
  · rw [h0]
  · exact Nat.digits_of_lt b n h0 h

theorem lowDigits_of_le (hb : 1 < b) (h : b ≤ n) :
    lowDigits b n = n % b :: lowDigits b (n / b) := by
  have hdiv : n / b ≠ 0 := (Nat.div_pos h (by omega)).ne'
  rw [lowDigits, if_neg (by omega), lowDigits, if_neg hdiv, Nat.digits_def' hb (by omega)]

theorem lowDigits_lt (hb : 1 < b) : ∀ d ∈ lowDigits b n, d < b := by
  unfold lowDigits
  split_ifs
  · simp only [mem_singleton]
    omega
  · exact fun d hd => Nat.digits_lt_base hb hd

theorem ofDigits_lowDigits (b n : Nat) : Nat.ofDigits b (lowDigits b n) = n := by
  unfold lowDigits
  split_ifs with h0
  · rw [h0, Nat.ofDigits_singleton]
  · exact Nat.ofDigits_digits b n

theorem length_lowDigits (hb : 1 < b) (n : Nat) : (lowDigits b n).length = Nat.log b n + 1 := by
  unfold lowDigits
  split_ifs with h0
  · rw [h0, Nat.log_zero_right, length_singleton]
  · exact Nat.length_digits b n hb h0

@[simp] theorem length_numeral {α : Type} {digit : Nat → α} (hb : 1 < b) :
    (numeral digit b n).length = Nat.log b n + 1 := by
  rw [numeral, length_reverse, length_map, length_lowDigits hb]

/-- A numeral can be read back. -/
theorem numeral_injective {α : Type} {digit : Nat → α} {v : α → Nat} (hb : 1 < b)
    (hv : ∀ i, i < b → v (digit i) = i) (h : numeral digit b m = numeral digit b n) : m = n := by
  have hread : ∀ k, lowDigits b k = (numeral digit b k).reverse.map v := by
    intro k
    rw [numeral, reverse_reverse, map_map]
    conv_lhs => rw [← map_id (lowDigits b k)]
    exact map_congr_left fun i hi => (hv i (lowDigits_lt hb i hi)).symm
  rw [← ofDigits_lowDigits b m, hread, h, ← hread, ofDigits_lowDigits]

/-- If no piece got longer, two concatenations are equal only piece by piece. -/
theorem flatMap_eq_iff {α β : Type} {f g : α → List β} {xs : List α}
    (h : ∀ x ∈ xs, (f x).length ≤ (g x).length) :
    xs.flatMap f = xs.flatMap g ↔ ∀ x ∈ xs, f x = g x := by
  induction xs with
  | nil => simp
  | cons x xs ih =>
    have hxs : ∀ y ∈ xs, (f y).length ≤ (g y).length := fun y hy => h y (mem_cons_of_mem x hy)
    rw [flatMap_cons, flatMap_cons, forall_mem_cons, ← ih hxs]
    constructor
    · intro heq
      have hlen := congrArg List.length heq
      rw [length_append, length_append] at hlen
      have hx := h x mem_cons_self
      have hrest : (xs.flatMap f).length ≤ (xs.flatMap g).length := by
        rw [length_flatMap, length_flatMap]
        exact sum_le_sum hxs
      exact append_inj heq (by omega)
    · rintro ⟨hx, hrest⟩
      rw [hx, hrest]

/-! ## Signed and unsigned -/

theorem toNat_toUInt32 (n : Int32) :
    (n.toUInt32.toNat : Int) = if n.toInt < 0 then n.toInt + 2 ^ 32 else n.toInt := by
  have hcond := BitVec.toInt_eq_toNat_cond n.toBitVec
  rw [Int32.toInt_toBitVec, Int32.toNat_toBitVec] at hcond
  have hlt : n.toUInt32.toNat < 2 ^ 32 := UInt32.toNat_lt _
  split_ifs at hcond ⊢ <;> omega

theorem toNat_toUInt32_of_nonneg {n : Int32} (h : 0 ≤ n.toInt) :
    (n.toUInt32.toNat : Int) = n.toInt := by
  rw [toNat_toUInt32, if_neg (not_lt.mpr h)]

end Xv6.Lib
