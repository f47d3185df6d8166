import Mathlib.Data.Nat.Bitwise
/-!
# Fixed-size byte blocks

A block is a function from its offsets to bytes.  The accessors below read and
write bytes and little-endian words at natural-number offsets; each write has
two lemmas, one for reading back the same word and one for a byte it does not
touch.
-/

namespace Xv6.Lib

/-- Exactly `N` bytes. -/
def Bytes (N : Nat) : Type := Fin N → UInt8

namespace Bytes

variable {N M : Nat} {a b : Bytes N} {o p i : Nat} {v : UInt64}

/-- The byte at an offset; zero past the end. -/
def get (b : Bytes N) (i : Nat) : UInt8 := if h : i < N then b ⟨i, h⟩ else 0

def set (b : Bytes N) (i : Nat) (v : UInt8) : Bytes N :=
  fun j => if j.val = i then v else b j

def zero : Bytes N := fun _ => 0

def const (c : UInt8) : Bytes N := fun _ => c

/-- Overwrite the `len` bytes from `off` on with `f 0, f 1, ..`. -/
def splice (b : Bytes N) (off len : Nat) (f : Nat → UInt8) : Bytes N :=
  fun j => if off ≤ j.val ∧ j.val < off + len then f (j.val - off) else b j

@[simp] theorem get_zero (i : Nat) : (zero : Bytes N).get i = 0 := by
  unfold get zero
  split <;> rfl

theorem get_set_self {v : UInt8} (h : i < N) : (b.set i v).get i = v := by
  simp [get, set, h]

theorem get_set_ne {i j : Nat} {v : UInt8} (h : j ≠ i) : (b.set i v).get j = b.get j := by
  simp [get, set, h]

theorem get_splice {off len i : Nat} {f : Nat → UInt8} (hi : i < N) : (b.splice off len f).get i =
      if off ≤ i ∧ i < off + len then f (i - off) else b.get i := by
  simp [get, splice, hi]

theorem splice_zero (b : Bytes N) (off : Nat) (f : Nat → UInt8) : b.splice off 0 f = b := by
  funext j
  have hj : ¬(off ≤ j.val ∧ j.val < off + 0) := by omega
  simp only [splice, if_neg hj]

/-! ## Little-endian words -/

def u16 (b : Bytes N) (o : Nat) : UInt16 :=
  UInt16.ofNat ((b.get o).toNat + 256 * (b.get (o + 1)).toNat)

def setU16 (b : Bytes N) (o : Nat) (v : UInt16) : Bytes N :=
  (b.set o (UInt8.ofNat v.toNat)).set (o + 1) (UInt8.ofNat (v.toNat / 256))

def u32 (b : Bytes N) (o : Nat) : UInt32 :=
  UInt32.ofNat ((b.get o).toNat + 256 * (b.get (o + 1)).toNat +
    65536 * (b.get (o + 2)).toNat + 16777216 * (b.get (o + 3)).toNat)

def setU32 (b : Bytes N) (o : Nat) (v : UInt32) : Bytes N :=
  (((b.set o (UInt8.ofNat v.toNat)).set (o + 1) (UInt8.ofNat (v.toNat / 256))).set
    (o + 2) (UInt8.ofNat (v.toNat / 65536))).set (o + 3) (UInt8.ofNat (v.toNat / 16777216))

def u64 (b : Bytes N) (o : Nat) : UInt64 :=
  UInt64.ofNat ((b.u32 o).toNat + 4294967296 * (b.u32 (o + 4)).toNat)

def setU64 (b : Bytes N) (o : Nat) (v : UInt64) : Bytes N :=
  b.splice o 8 fun j => UInt8.ofNat (v.toNat / 256 ^ j)

/-! ## Bits

Bit `i` is bit `i % 8` of byte `i / 8`. -/

def bitMask (i : Nat) : UInt8 := 1 <<< UInt8.ofNat (i % 8)

def bit (b : Bytes N) (i : Nat) : Bool := b.get (i / 8) &&& bitMask i != 0

def setBit (b : Bytes N) (i : Nat) : Bytes N := b.set (i / 8) (b.get (i / 8) ||| bitMask i)

def clearBit (b : Bytes N) (i : Nat) : Bytes N := b.set (i / 8) (b.get (i / 8) &&& ~~~bitMask i)

theorem toNat_bitMask (i : Nat) : (bitMask i).toNat = 2 ^ (i % 8) := by
  have h : ∀ j, j < 8 → ((1 : UInt8) <<< UInt8.ofNat j).toNat = 2 ^ j := by decide
  exact h _ (Nat.mod_lt _ (by decide))

theorem bit_eq_testBit (b : Bytes N) (i : Nat) :
    b.bit i = (b.get (i / 8)).toNat.testBit (i % 8) := by
  have h : (b.get (i / 8) &&& bitMask i).toNat =
      ((b.get (i / 8)).toNat.testBit (i % 8)).toNat * 2 ^ (i % 8) := by
    rw [UInt8.toNat_and, toNat_bitMask, Nat.and_two_pow]
  have hpos : 0 < 2 ^ (i % 8) := Nat.two_pow_pos _
  have hzero : (b.get (i / 8) &&& bitMask i = 0) ↔
      (b.get (i / 8)).toNat.testBit (i % 8) = false := by
    rw [← UInt8.toNat_inj, h]
    cases (b.get (i / 8)).toNat.testBit (i % 8)
    · simp
    · simp
  unfold bit
  cases hb : (b.get (i / 8)).toNat.testBit (i % 8) with
  | true => simp [hzero, hb]
  | false => simp [hzero, hb]

private theorem testBit_bitMask (i j : Nat) : (bitMask i).toNat.testBit j = decide (i % 8 = j) := by
  rw [toNat_bitMask, Nat.testBit_two_pow]

/-- Bits that share no byte are independent; two bits of one byte are told
apart by their place in it. -/
private theorem bit_set {x : UInt8} (hi : i < 8 * N) (j : Nat) :
    (b.set (i / 8) x).bit j = if j / 8 = i / 8 then x.toNat.testBit (j % 8) else b.bit j := by
  rw [bit_eq_testBit]
  by_cases h : j / 8 = i / 8
  · rw [if_pos h, h, get_set_self (by omega)]
  · rw [if_neg h, get_set_ne h, bit_eq_testBit]

theorem bit_setBit (hi : i < 8 * N) (j : Nat) :
    (b.setBit i).bit j = if j = i then true else b.bit j := by
  unfold setBit
  rw [bit_set hi]
  by_cases h : j / 8 = i / 8
  · rw [if_pos h, UInt8.toNat_or, Nat.testBit_or, testBit_bitMask, ← h, ← bit_eq_testBit]
    by_cases hji : j = i
    · simp [hji]
    · have hmod : i % 8 ≠ j % 8 := by omega
      simp [hji, hmod]
  · have hji : j ≠ i := fun e => h (e ▸ rfl)
    rw [if_neg h, if_neg hji]

/-! ## Words and the bytes under them -/

theorem u16_congr {b : Bytes M}
    (h : ∀ i, i < 2 → a.get (o + i) = b.get (p + i)) : a.u16 o = b.u16 p := by
  have h0 := h 0 (by omega)
  have h1 := h 1 (by omega)
  simp only [Nat.add_zero] at h0
  simp only [u16, h0, h1]

theorem u32_congr {b : Bytes M}
    (h : ∀ i, i < 4 → a.get (o + i) = b.get (p + i)) : a.u32 o = b.u32 p := by
  have h0 := h 0 (by omega)
  have h1 := h 1 (by omega)
  have h2 := h 2 (by omega)
  have h3 := h 3 (by omega)
  simp only [Nat.add_zero] at h0
  simp only [u32, h0, h1, h2, h3]

@[simp] theorem u32_zero (o : Nat) : (zero : Bytes N).u32 o = 0 := by
  unfold u32
  simp only [get_zero]
  rfl

theorem get_setU16_ne {v : UInt16} (h : i < o ∨ o + 2 ≤ i) : (b.setU16 o v).get i = b.get i := by
  unfold setU16
  rw [get_set_ne (by omega), get_set_ne (by omega)]

theorem get_setU32_ne {v : UInt32} (h : i < o ∨ o + 4 ≤ i) : (b.setU32 o v).get i = b.get i := by
  unfold setU32
  rw [get_set_ne (by omega), get_set_ne (by omega), get_set_ne (by omega), get_set_ne (by omega)]

theorem u16_setU16 {v : UInt16} (h : o + 2 ≤ N) : (b.setU16 o v).u16 o = v := by
  have h0 : (b.setU16 o v).get o = UInt8.ofNat v.toNat := by
    unfold setU16
    rw [get_set_ne (by omega), get_set_self (by omega)]
  have h1 : (b.setU16 o v).get (o + 1) = UInt8.ofNat (v.toNat / 256) := by
    unfold setU16
    rw [get_set_self (by omega)]
  have hv : v.toNat < 65536 := v.toNat_lt
  rw [← UInt16.toNat_inj]
  simp only [u16, h0, h1, UInt16.toNat_ofNat', UInt8.toNat_ofNat']
  omega

theorem u32_setU32 {v : UInt32} (h : o + 4 ≤ N) : (b.setU32 o v).u32 o = v := by
  have h0 : (b.setU32 o v).get o = UInt8.ofNat v.toNat := by
    unfold setU32
    rw [get_set_ne (by omega), get_set_ne (by omega), get_set_ne (by omega),
      get_set_self (by omega)]
  have h1 : (b.setU32 o v).get (o + 1) = UInt8.ofNat (v.toNat / 256) := by
    unfold setU32
    rw [get_set_ne (by omega), get_set_ne (by omega), get_set_self (by omega)]
  have h2 : (b.setU32 o v).get (o + 2) = UInt8.ofNat (v.toNat / 65536) := by
    unfold setU32
    rw [get_set_ne (by omega), get_set_self (by omega)]
  have h3 : (b.setU32 o v).get (o + 3) = UInt8.ofNat (v.toNat / 16777216) := by
    unfold setU32
    rw [get_set_self (by omega)]
  have hv : v.toNat < 4294967296 := v.toNat_lt
  rw [← UInt32.toNat_inj]
  simp only [u32, h0, h1, h2, h3, UInt32.toNat_ofNat', UInt8.toNat_ofNat']
  omega

theorem u16_setU16_ne {v : UInt16} (h : p + 2 ≤ o ∨ o + 2 ≤ p) :
    (b.setU16 o v).u16 p = b.u16 p := by
  apply u16_congr
  intro i hi
  exact get_setU16_ne (by omega)

theorem u16_setU32_ne {v : UInt32} (h : p + 2 ≤ o ∨ o + 4 ≤ p) :
    (b.setU32 o v).u16 p = b.u16 p := by
  apply u16_congr
  intro i hi
  exact get_setU32_ne (by omega)

theorem u32_setU32_ne {v : UInt32} (h : p + 4 ≤ o ∨ o + 4 ≤ p) :
    (b.setU32 o v).u32 p = b.u32 p := by
  apply u32_congr
  intro i hi
  exact get_setU32_ne (by omega)

theorem u64_congr {b : Bytes M}
    (h : ∀ i, i < 8 → a.get (o + i) = b.get (p + i)) : a.u64 o = b.u64 p := by
  have hlo : a.u32 o = b.u32 p := u32_congr fun i hi => h i (by omega)
  have hhi : a.u32 (o + 4) = b.u32 (p + 4) := by
    apply u32_congr
    intro i hi
    rw [Nat.add_assoc, Nat.add_assoc]
    exact h (4 + i) (by omega)
  simp only [u64, hlo, hhi]

@[simp] theorem u64_zero (o : Nat) : (zero : Bytes N).u64 o = 0 := by
  unfold u64
  rw [u32_zero, u32_zero]
  rfl

theorem toNat_u32 (b : Bytes N) (o : Nat) : (b.u32 o).toNat = (b.get o).toNat +
    256 * (b.get (o + 1)).toNat + 65536 * (b.get (o + 2)).toNat +
    16777216 * (b.get (o + 3)).toNat := by
  have h0 : (b.get o).toNat < 256 := (b.get o).toNat_lt
  have h1 : (b.get (o + 1)).toNat < 256 := (b.get (o + 1)).toNat_lt
  have h2 : (b.get (o + 2)).toNat < 256 := (b.get (o + 2)).toNat_lt
  have h3 : (b.get (o + 3)).toNat < 256 := (b.get (o + 3)).toNat_lt
  unfold u32
  rw [UInt32.toNat_ofNat']
  omega

theorem u64_setU64 (h : o + 8 ≤ N) : (b.setU64 o v).u64 o = v := by
  have hget : ∀ j, j < 8 → ((b.setU64 o v).get (o + j)).toNat = v.toNat / 256 ^ j % 256 := by
    intro j hj
    unfold setU64
    rw [get_splice (by omega), if_pos (by omega), Nat.add_sub_cancel_left, UInt8.toNat_ofNat']
  have h0 := hget 0 (by omega)
  have h1 := hget 1 (by omega)
  have h2 := hget 2 (by omega)
  have h3 := hget 3 (by omega)
  have h4 := hget 4 (by omega)
  have h5 := hget 5 (by omega)
  have h6 := hget 6 (by omega)
  have h7 := hget 7 (by omega)
  have hv : v.toNat < 18446744073709551616 := v.toNat_lt
  have hlo : ((b.setU64 o v).u32 o).toNat = v.toNat % 4294967296 := by
    rw [toNat_u32, h1, h2, h3, show (b.setU64 o v).get o = (b.setU64 o v).get (o + 0) from rfl, h0]
    omega
  have hhi : ((b.setU64 o v).u32 (o + 4)).toNat = v.toNat / 4294967296 := by
    rw [toNat_u32, h4, Nat.add_assoc, h5, Nat.add_assoc, h6, Nat.add_assoc, h7]
    omega
  rw [← UInt64.toNat_inj]
  unfold u64
  rw [hlo, hhi, UInt64.toNat_ofNat']
  omega

theorem get_setU64_ne (h : i < o ∨ o + 8 ≤ i) : (b.setU64 o v).get i = b.get i := by
  by_cases hi : i < N
  · unfold setU64
    rw [get_splice hi, if_neg (by omega)]
  · unfold get
    rw [dif_neg hi, dif_neg hi]

theorem u64_setU64_ne (h : p + 8 ≤ o ∨ o + 8 ≤ p) : (b.setU64 o v).u64 p = b.u64 p := by
  apply u64_congr
  intro i hi
  exact get_setU64_ne (by omega)

end Bytes

end Xv6.Lib
