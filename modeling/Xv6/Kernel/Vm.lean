import Xv6.Kernel.Param
import Mathlib.Logic.Function.Basic
/-!
# Copying between the kernel and user memory

`copyin` and `copyout` of `vm.c` and `either_copyin` and `either_copyout` of
`proc.c`.  A user page table is reduced to what `walkaddr` finds in it: for
each page number the contents of the page, or nothing when the page is not
mapped for the user.
-/

namespace Xv6.Kernel

open Xv6.Lib

def PGSIZE : Nat := 4096
def MAXVA : Nat := 2 ^ 38

abbrev UserMem : Type := Nat → Option (Bytes PGSIZE)

/-- The user page at virtual address `va`, if it is mapped. -/
def walkaddr (m : UserMem) (va : Nat) : Option (Bytes PGSIZE) :=
  if MAXVA ≤ va then none else m (va / PGSIZE)

/-- The loop of `copyin`, one page a round.  The flag is the result: false for
`-1`. -/
def copyinLoop {N : Nat} (m : UserMem) : Nat → Bytes N → Nat → Nat → Nat → Bytes N × Bool
  | 0, b, _, _, len => (b, decide (len = 0))
  | fuel + 1, b, dst, srcva, len =>
    if len = 0 then
      (b, true)
    else
      match walkaddr m srcva with
      | none => (b, false)
      | some page =>
        let n := min (PGSIZE - srcva % PGSIZE) len
        copyinLoop m fuel (b.splice dst n fun j => page.get (srcva % PGSIZE + j)) (dst + n)
          (srcva + n) (len - n)

/-- Copy `len` bytes from user address `srcva` to offset `dst` of a kernel
buffer.  Each round copies at least one byte, so `len` rounds are enough. -/
def copyin {N : Nat} (m : UserMem) (b : Bytes N) (dst srcva len : Nat) : Bytes N × Bool :=
  copyinLoop m len b dst srcva len

def copyoutLoop (src : Nat → UInt8) : Nat → UserMem → Nat → Nat → Nat → UserMem × Bool
  | 0, m, _, _, len => (m, decide (len = 0))
  | fuel + 1, m, dstva, done, len =>
    if len = 0 then
      (m, true)
    else
      match walkaddr m dstva with
      | none => (m, false)
      | some page =>
        let n := min (PGSIZE - dstva % PGSIZE) len
        let page' := page.splice (dstva % PGSIZE) n fun j => src (done + j)
        copyoutLoop src fuel (Function.update m (dstva / PGSIZE) (some page')) (dstva + n)
          (done + n) (len - n)

/-- Copy `len` bytes `src 0, src 1, ..` to user address `dstva`. -/
def copyout (m : UserMem) (dstva : Nat) (src : Nat → UInt8) (len : Nat) : UserMem × Bool :=
  copyoutLoop src len m dstva 0 len

/-- Memory that `readi` writes to or `writei` reads from: a user address space
or the kernel's own memory. -/
inductive Mem where
  | user (m : UserMem)
  | kernel (m : Nat → UInt8)

def eitherCopyin {N : Nat} (m : Mem) (b : Bytes N) (dst src len : Nat) : Bytes N × Bool :=
  match m with
  | .user m => copyin m b dst src len
  | .kernel m => (b.splice dst len fun j => m (src + j), true)

def eitherCopyout (m : Mem) (dst : Nat) (src : Nat → UInt8) (len : Nat) : Mem × Bool :=
  match m with
  | .user m => (Mem.user (copyout m dst src len).1, (copyout m dst src len).2)
  | .kernel m =>
    (Mem.kernel fun a => if dst ≤ a ∧ a < dst + len then src (a - dst) else m a, true)

end Xv6.Kernel
