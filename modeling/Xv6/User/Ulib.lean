import Xv6.Kernel.String
/-!
# The C library

`memmove` and `strchr` of `user/ulib.c`, and the strings that functions get as pointers.
-/

namespace Xv6.User

/-- `memmove` of the C library, with what it returns. -/
def memmove (dst src : UInt64) (n : Int32) (m : Mem) : UInt64 × Mem :=
  if src > dst then (dst, copyUp n.toInt.toNat dst src m)
  else
    let off := n.toInt64.toUInt64
    (dst, copyDown n.toInt.toNat (dst + off) (src + off) m)

/-- `strchr`, if it ends within `fuel` rounds. -/
def strchr (m : Mem) (c : UInt8) : Nat → UInt64 → Option UInt64
  | 0, _ => none
  | fuel + 1, s => if m s = 0 then some 0 else if m s = c then some s else strchr m c fuel (s + 1)

/-- The C string at `s`, if it ends within `fuel` bytes. -/
def stringAt (m : Mem) : Nat → UInt64 → Option (List UInt8)
  | 0, _ => none
  | fuel + 1, s => if m s = 0 then some [] else (stringAt m fuel (s + 1)).map (m s :: ·)

end Xv6.User
