import Mathlib.Logic.Function.Basic
/-!
# Moving memory

`memmove` of `kernel/string.c`.  Memory is a map from addresses to bytes, and
pointers are 64-bit words, so their arithmetic wraps.
-/

namespace Xv6

abbrev Mem : Type := UInt64 → UInt8

def byteAt (p : UInt64) (i : Nat) : UInt64 := p + UInt64.ofNat i

/-- `while(n-- > 0) *d++ = *s++;` -/
def copyUp : Nat → UInt64 → UInt64 → Mem → Mem
  | 0, _, _, m => m
  | n + 1, d, s, m => copyUp n (d + 1) (s + 1) (Function.update m d (m s))

/-- `while(n-- > 0) *--d = *--s;` -/
def copyDown : Nat → UInt64 → UInt64 → Mem → Mem
  | 0, _, _, m => m
  | n + 1, d, s, m => copyDown n (d - 1) (s - 1) (Function.update m (d - 1) (m (s - 1)))

namespace Kernel

/-- `memmove` of the kernel, with what it returns. -/
def memmove (dst src : UInt64) (n : UInt32) (m : Mem) : UInt64 × Mem :=
  if src < dst ∧ src + n.toUInt64 > dst then
    (dst, copyDown n.toNat (dst + n.toUInt64) (src + n.toUInt64) m)
  else (dst, copyUp n.toNat dst src m)

end Kernel

end Xv6
