import Xv6.Kernel.Bio
import Xv6.Lib.Dlist
/-!
# The list of buffers

The functions of `bio.c` on the pointers themselves.  A node is a buffer or
`bcache.head`.
-/

namespace Xv6.Kernel

open Xv6.Lib

/-- A pointer in the list; `none` is `&bcache.head`. -/
abbrev Node : Type := Option BufId

structure Bcache where
  buf : BufId → Buf
  links : Links Node

namespace Bcache

def setBuf (c : Bcache) (i : BufId) (b : Buf) : Bcache :=
  { c with buf := Function.update c.buf i b }

/-- One round of `binit`. -/
def link (c : Bcache) (i : BufId) : Bcache :=
  { c.setBuf i { c.buf i with lock := none } with links := c.links.insert none (some i) }

def binit (c : Bcache) : Bcache :=
  (List.finRange NBUF).foldl link { c with links := c.links.alone none }

def Caches (c : Bcache) (dev b : Nat) (i : BufId) : Prop :=
  (c.buf i).dev = dev ∧ (c.buf i).blockno = b

instance (c : Bcache) (dev b : Nat) (i : BufId) : Decidable (c.Caches dev b i) :=
  inferInstanceAs (Decidable (_ ∧ _))

/-- The first loop of `bget`, from `head.next`. -/
def lookup (c : Bcache) (dev b : Nat) : Option BufId :=
  scan c.links.next none (fun x => x.filter fun i => c.Caches dev b i) (NBUF + 1)
    (c.links.next none)

/-- The second loop of `bget`, from `head.prev`. -/
def victim (c : Bcache) : Option BufId :=
  scan c.links.prev none (fun x => x.filter fun i => (c.buf i).refcnt = 0) (NBUF + 1)
    (c.links.prev none)

/-- `bget` under `bcache.lock`. -/
def bgetRef (c : Bcache) (dev blockno : Nat) : Except Stop (BufId × Bcache) :=
  match c.lookup dev blockno with
  | some i => .ok (i, c.setBuf i { c.buf i with refcnt := incr32 (c.buf i).refcnt })
  | none =>
    match c.victim with
    | some i =>
      .ok (i, c.setBuf i { c.buf i with
        dev := dev, blockno := blockno, valid := false, refcnt := 1 })
    | none => .error (.panic .bgetNoBuffers)

/-- `acquiresleep` by process `pid`; one that finds the lock taken waits. -/
def acquiresleep (c : Bcache) (pid : Nat) (i : BufId) : Except Stop Bcache :=
  if (c.buf i).lock = none then
    .ok (c.setBuf i { c.buf i with lock := some pid })
  else
    .error .sleep

/-- The start of `brelse`, up to and with `releasesleep`. -/
def unlock (c : Bcache) (pid : Nat) (i : BufId) : Except Stop Bcache :=
  if (c.buf i).lock = some pid then
    .ok (c.setBuf i { c.buf i with lock := none })
  else
    .error (.panic .brelse)

def touch (c : Bcache) (i : BufId) : Bcache :=
  { c with links := (c.links.unlink (some i)).insert none (some i) }

/-- `brelse` under `bcache.lock`. -/
def bdrop (c : Bcache) (i : BufId) : Bcache :=
  let c1 := c.setBuf i { c.buf i with refcnt := decr32 (c.buf i).refcnt }
  if decr32 (c.buf i).refcnt = 0 then c1.touch i else c1

def bpin (c : Bcache) (i : BufId) : Bcache :=
  c.setBuf i { c.buf i with refcnt := incr32 (c.buf i).refcnt }

def bunpin (c : Bcache) (i : BufId) : Bcache :=
  c.setBuf i { c.buf i with refcnt := decr32 (c.buf i).refcnt }

end Bcache

end Xv6.Kernel
