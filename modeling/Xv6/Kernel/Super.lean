import Xv6.Kernel.Log
/-!
# The superblock

`struct superblock`, `readsb` and `fsinit` of `fs.c`.
-/

namespace Xv6.Kernel

open Xv6.Lib

def FSMAGIC : Nat := 0x10203040

structure Superblock where
  magic : Nat
  size : Nat
  nblocks : Nat
  ninodes : Nat
  nlog : Nat
  logstart : Nat
  inodestart : Nat
  bmapstart : Nat
  deriving DecidableEq, Repr

/-- The layout of `struct superblock`: eight `uint`s. -/
def Superblock.decode (b : Block) : Superblock where
  magic := (b.u32 0).toNat
  size := (b.u32 4).toNat
  nblocks := (b.u32 8).toNat
  ninodes := (b.u32 12).toNat
  nlog := (b.u32 16).toNat
  logstart := (b.u32 20).toNat
  inodestart := (b.u32 24).toNat
  bmapstart := (b.u32 28).toNat

def readsb (dev : Nat) : BlkM Superblock := do
  let bp ← bread dev 1
  let d ← bdata bp
  brelse bp
  pure (Superblock.decode d)

/-- `fsinit`; the superblock it leaves in the global `sb` is its result. -/
def fsinit (dev : Nat) : BlkM Superblock := do
  let sb ← readsb dev
  if sb.magic ≠ FSMAGIC then
    panic .invalidFileSystem
  else
    initlog dev sb.logstart sb.nlog
    pure sb

end Xv6.Kernel
