import Xv6.Kernel.Vm
/-!
# Physical pages

`memlayout.h`, `kernel.ld` and `kalloc.c`.  Physical memory is a function from
the addresses of pages to their contents; the free pages are linked through
their first words.
-/

namespace Xv6.Kernel

open Xv6.Lib

def KERNBASE : Nat := 0x80000000
def PHYSTOP : Nat := KERNBASE + 128 * 1024 * 1024

def add64 (a b : Nat) : Nat := (a + b) % 2 ^ 64

/-- `(a) & ~(PGSIZE-1)`. -/
def PGROUNDDOWN (a : Nat) : Nat := a / PGSIZE * PGSIZE

def PGROUNDUP (sz : Nat) : Nat := PGROUNDDOWN (add64 sz (PGSIZE - 1))

/-- How often `for(a = lo; a < hi; a += PGSIZE)` goes round. -/
def rounds (lo hi : Nat) : Nat := (hi - lo + (PGSIZE - 1)) / PGSIZE

/-- The panics of `kalloc.c`, `vm.c`, `exec.c`, `file.c` and `proc.c` that a
user process could reach, and that of `trap.c` when the kernel follows a null
pointer. -/
inductive VmPanic where
  | kfree
  | walk
  | kvmmap
  | remap
  | unmapNotAligned
  | unmapWalk
  | unmapNotMapped
  | unmapNotLeaf
  | inituvm
  | freewalkLeaf
  | uvmcopyPte
  | uvmcopyPage
  | uvmclear
  | loadsegAligned
  | loadsegAddress
  | kalloc
  | filedup
  | fileclose
  | initExiting
  | kerneltrap
  deriving DecidableEq, Repr

/-- The symbols `kernel.ld` defines: the trampoline is the last page of the
kernel's text, and `end` the first address after the kernel. -/
structure Link where
  trampoline : Nat
  endAddr : Nat
  aligned : trampoline % PGSIZE = 0
  base : KERNBASE ≤ trampoline
  text : trampoline + PGSIZE ≤ endAddr
  ram : endAddr ≤ PHYSTOP

/-- Physical memory and `kmem`.  `page` is keyed by page-aligned addresses.
`deny` lists, for the calls of `kalloc` to come, whether the call fails although
a page is free, as when other processes hold all of them for the moment. -/
structure Phys where
  page : Nat → Bytes PGSIZE
  freelist : Nat
  deny : List Bool

abbrev VmM (α : Type) : Type := Prog Phys VmPanic α

namespace Phys

def setPage (s : Phys) (pa : Nat) (b : Bytes PGSIZE) : Phys :=
  { s with page := Function.update s.page pa b }

def next (s : Phys) (pa : Nat) : Nat := ((s.page pa).u64 0).toNat

def word (s : Phys) (pa i : Nat) : UInt64 := (s.page pa).u64 (8 * i)

def setWord (s : Phys) (pa i : Nat) (w : UInt64) : Phys :=
  s.setPage pa ((s.page pa).setU64 (8 * i) w)

end Phys

/-- `memset(pa, c, PGSIZE)`. -/
def memset (pa : Nat) (c : UInt8) : VmM Unit := Prog.modify fun s => s.setPage pa (Bytes.const c)

def kfree (L : Link) (pa : Nat) : VmM Unit :=
  if pa % PGSIZE ≠ 0 ∨ pa < L.endAddr ∨ PHYSTOP ≤ pa then
    Prog.stop .kfree
  else do
    memset pa 1
    Prog.modify fun s => s.setWord pa 0 (UInt64.ofNat s.freelist)
    Prog.modify fun s => { s with freelist := pa }

def kalloc : VmM Nat := do
  let s ← Prog.get
  Prog.modify fun s => { s with deny := s.deny.tail }
  if s.freelist = 0 ∨ s.deny.headD false = true then
    pure 0
  else do
    Prog.modify fun s => { s with freelist := s.next s.freelist }
    memset s.freelist 5
    pure s.freelist

/-- `freerange(end, PHYSTOP)`. -/
def kinit (L : Link) : VmM Unit :=
  Prog.forRange (fun i => kfree L (PGROUNDUP L.endAddr + i * PGSIZE)) 0
    ((PHYSTOP - PGROUNDUP L.endAddr) / PGSIZE)

end Xv6.Kernel
