import Xv6.Lib.Bytes
/-!
# Pipes

`struct pipe` of `pipe.c` without its lock, and what the loops of `pipewrite` and
`piperead` do to it.
-/

namespace Xv6.Kernel

open Xv6.Lib

def PIPESIZE : Nat := 512

structure Pipe where
  data : Bytes PIPESIZE
  nread : UInt32
  nwrite : UInt32
  readopen : Bool
  writeopen : Bool

namespace Pipe

/-- What `pipealloc` makes of a fresh page. -/
def fresh (page : Bytes PIPESIZE) : Pipe where
  data := page
  nread := 0
  nwrite := 0
  readopen := true
  writeopen := true

def isFull (pi : Pipe) : Bool := pi.nwrite = pi.nread + UInt32.ofNat PIPESIZE

def isEmpty (pi : Pipe) : Bool := pi.nread = pi.nwrite

/-- `pi->data[pi->nwrite++ % PIPESIZE] = ch`. -/
def put (pi : Pipe) (ch : UInt8) : Pipe :=
  { pi with
    data := pi.data.set (pi.nwrite.toNat % PIPESIZE) ch
    nwrite := pi.nwrite + 1 }

/-- `pi->data[pi->nread % PIPESIZE]`. -/
def first (pi : Pipe) : UInt8 := pi.data.get (pi.nread.toNat % PIPESIZE)

def drop (pi : Pipe) : Pipe := { pi with nread := pi.nread + 1 }

/-- The assignment of `pipeclose`. -/
def closed (pi : Pipe) (writable : Bool) : Pipe :=
  if writable = true then { pi with writeopen := false } else { pi with readopen := false }

def used (pi : Pipe) : Nat := (pi.nwrite - pi.nread).toNat

/-- `data[nread..nwrite)`. -/
def contents (pi : Pipe) : List UInt8 :=
  (List.range pi.used).map fun j => pi.data.get ((pi.nread + UInt32.ofNat j).toNat % PIPESIZE)

end Pipe

end Xv6.Kernel
