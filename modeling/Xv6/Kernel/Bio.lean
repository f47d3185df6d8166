import Xv6.Kernel.Param
import Mathlib.Logic.Function.Basic
/-!
# The buffer cache

`bio.c`.  The buffers are an array; the list through `next` and `prev` is kept
as the sequence of array indices it visits from `head.next` on, most recently
used first.  The disk is a map from block numbers to contents, together with
the writes it has carried out, oldest first.
-/

namespace Xv6.Kernel

open Xv6.Lib

/-- A buffer number, the model's `struct buf *`. -/
abbrev BufId : Type := Fin NBUF

/-- `struct buf`.  `lock` is the sleep lock: the pid of the process that holds
it, if any.  `refcnt` is a `uint`. -/
structure Buf where
  valid : Bool
  dev : Nat
  blockno : Nat
  lock : Option Nat
  refcnt : Nat
  data : Block

/-- The in-memory `struct log`.  `lh` is `lh.block[0..n)`; its length is
`lh.n`. -/
structure Log where
  start : Nat
  size : Nat
  outstanding : Int
  committing : Bool
  dev : Nat
  lh : List Nat
  deriving DecidableEq, Repr

/-- The block layer: disk, buffer cache and log, seen by the running process
`pid`. -/
structure Blk where
  disk : Nat → Block
  writes : List (Nat × Block)
  buf : BufId → Buf
  lru : List BufId
  log : Log
  pid : Nat

abbrev BlkM (α : Type) : Type := Prog Blk Stop α

def panic {σ α : Type} (p : Panic) : Prog σ Stop α := Prog.stop (.panic p)

/-- `uint` increment and decrement. -/
def incr32 (n : Nat) : Nat := if n = 2 ^ 32 - 1 then 0 else n + 1

def decr32 (n : Nat) : Nat := if n = 0 then 2 ^ 32 - 1 else n - 1

namespace Blk

@[simps disk writes lru log pid]
def setBuf (s : Blk) (i : BufId) (b : Buf) : Blk :=
  { s with buf := Function.update s.buf i b }

@[simps -fullyApplied buf disk writes log pid]
def withLog (s : Blk) (l : Log) : Blk := { s with log := l }

def Caches (s : Blk) (dev b : Nat) (i : BufId) : Prop :=
  (s.buf i).dev = dev ∧ (s.buf i).blockno = b

instance (s : Blk) (dev b : Nat) (i : BufId) : Decidable (s.Caches dev b i) :=
  inferInstanceAs (Decidable (_ ∧ _))

/-- Search from `head.next`. -/
def lookup (s : Blk) (dev b : Nat) : Option BufId :=
  s.lru.find? fun i => s.Caches dev b i

/-- The least recently used buffer nobody refers to: search from `head.prev`. -/
def victim (s : Blk) : Option BufId :=
  s.lru.reverse.find? fun i => (s.buf i).refcnt = 0

def touch (s : Blk) (i : BufId) : Blk := { s with lru := i :: s.lru.erase i }

end Blk

def getBuf (i : BufId) : BlkM Buf := Prog.gets fun s => s.buf i

def putBuf (i : BufId) (b : Buf) : BlkM Unit := Prog.modify fun s => s.setBuf i b

def bdata (i : BufId) : BlkM Block := Prog.gets fun s => (s.buf i).data

/-- Store into `bp->data`. -/
def setData (i : BufId) (d : Block) : BlkM Unit :=
  Prog.modify fun s => s.setBuf i { s.buf i with data := d }

/-- `acquiresleep` on a buffer: a process that finds the lock taken waits. -/
def acquiresleep (i : BufId) : BlkM Unit := do
  let b ← getBuf i
  let pid ← Prog.gets Blk.pid
  if b.lock = none then
    putBuf i { b with lock := some pid }
  else
    Prog.stop .sleep

def holdingsleep (i : BufId) : BlkM Bool :=
  Prog.gets fun s => (s.buf i).lock = some s.pid

def releasesleep (i : BufId) : BlkM Unit := do
  let b ← getBuf i
  putBuf i { b with lock := none }

/-- `virtio_disk_rw(b, 0)`. -/
def diskRead (i : BufId) : BlkM Unit :=
  Prog.modify fun s => s.setBuf i { s.buf i with data := s.disk (s.buf i).blockno }

/-- `virtio_disk_rw(b, 1)`. -/
def diskWrite (i : BufId) : BlkM Unit :=
  Prog.modify fun s =>
    { s with
      disk := Function.update s.disk (s.buf i).blockno (s.buf i).data
      writes := s.writes ++ [((s.buf i).blockno, (s.buf i).data)] }

/-- The part of `bget` that runs under `bcache.lock`: find the block or recycle
a buffer for it, and take a reference. -/
def bgetRef (dev blockno : Nat) : BlkM BufId := do
  let s ← Prog.get
  match s.lookup dev blockno with
  | some i =>
    putBuf i { s.buf i with refcnt := incr32 (s.buf i).refcnt }
    pure i
  | none =>
    match s.victim with
    | some i =>
      putBuf i { s.buf i with dev := dev, blockno := blockno, valid := false, refcnt := 1 }
      pure i
    | none => panic .bgetNoBuffers

def bget (dev blockno : Nat) : BlkM BufId := do
  let i ← bgetRef dev blockno
  acquiresleep i
  pure i

/-- The part of `bread` after `bget`: fill the buffer if it is not valid. -/
def bfill (i : BufId) : BlkM Unit := do
  let b ← getBuf i
  if b.valid = false then
    diskRead i
    Prog.modify fun s => s.setBuf i { s.buf i with valid := true }
  else
    pure ()

def bread (dev blockno : Nat) : BlkM BufId := do
  let i ← bget dev blockno
  bfill i
  pure i

def bwrite (i : BufId) : BlkM Unit := do
  let held ← holdingsleep i
  if held = true then diskWrite i else panic .bwrite

/-- The part of `brelse` that runs under `bcache.lock`. -/
def bdrop (i : BufId) : BlkM Unit := do
  let b ← getBuf i
  putBuf i { b with refcnt := decr32 b.refcnt }
  if decr32 b.refcnt = 0 then
    Prog.modify fun s => s.touch i
  else
    pure ()

def brelse (i : BufId) : BlkM Unit := do
  let held ← holdingsleep i
  if held = true then
    releasesleep i
    bdrop i
  else
    panic .brelse

def bpin (i : BufId) : BlkM Unit := do
  let b ← getBuf i
  putBuf i { b with refcnt := incr32 b.refcnt }

def bunpin (i : BufId) : BlkM Unit := do
  let b ← getBuf i
  putBuf i { b with refcnt := decr32 b.refcnt }

/-- A buffer of the zero-filled kernel image. -/
def Buf.initial : Buf where
  valid := false
  dev := 0
  blockno := 0
  lock := none
  refcnt := 0
  data := Bytes.zero

/-- `binit`: each buffer in turn is linked in behind `head`. -/
def binit : List BufId := (List.finRange NBUF).foldl (fun l i => i :: l) []

end Xv6.Kernel
