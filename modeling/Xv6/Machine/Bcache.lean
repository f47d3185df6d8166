import Xv6.Kernel.Bcache
import Xv6.Lib.Runs
/-!
# Calls on the list of buffers

`bget` and `brelse` of one process may be interrupted by those of others where they
do not hold `bcache.lock`, so each is two actions.  The run records which buffers
were moved to the front of the list.
-/

namespace Xv6.Kernel

open Xv6.Lib

/-- A cache and the buffers that were linked in behind `head`, the last one first. -/
structure CacheRun where
  cache : Bcache
  moves : List BufId

inductive CacheCall where
  | bget (dev blockno : Nat)
  | acquiresleep (pid : Nat) (i : BufId)
  | unlock (pid : Nat) (i : BufId)
  | bdrop (i : BufId)
  | bpin (i : BufId)
  | bunpin (i : BufId)

namespace CacheRun

/-- After `binit`, with whatever was in the pointers before. -/
def start (links : Links Node) : CacheRun where
  cache := Bcache.binit ⟨fun _ => Buf.initial, links⟩
  moves := (List.finRange NBUF).reverse

/-- There is no next state where the call panics or waits. -/
def step (x : CacheRun) : CacheCall → Option CacheRun
  | .bget dev blockno => (x.cache.bgetRef dev blockno).toOption.map fun r => { x with cache := r.2 }
  | .acquiresleep pid i => (x.cache.acquiresleep pid i).toOption.map fun c => { x with cache := c }
  | .unlock pid i => (x.cache.unlock pid i).toOption.map fun c => { x with cache := c }
  | .bdrop i =>
    some ⟨x.cache.bdrop i, if decr32 (x.cache.buf i).refcnt = 0 then i :: x.moves else x.moves⟩
  | .bpin i => some { x with cache := x.cache.bpin i }
  | .bunpin i => some { x with cache := x.cache.bunpin i }

end CacheRun

/-- The start of `brelse`, up to and with `releasesleep`. -/
def unlockBuf (i : BufId) : BlkM Unit := do
  let held ← holdingsleep i
  if held = true then releasesleep i else panic .brelse

/-- The same call on the list of `Blk`. -/
def callOnList : CacheCall → Blk → Except Stop (Unit × Blk)
  | .bget dev blockno, s => (bgetRef dev blockno s).map fun r => ((), r.2)
  | .acquiresleep pid i, s => acquiresleep i { s with pid := pid }
  | .unlock pid i, s => unlockBuf i { s with pid := pid }
  | .bdrop i, s => bdrop i s
  | .bpin i, s => bpin i s
  | .bunpin i, s => bunpin i s

def listStep (s : Blk) (a : CacheCall) : Option Blk := (callOnList a s).toOption.map Prod.snd

end Xv6.Kernel
