import Xv6.Kernel.File
/-!
# Processes that write through one open file

Every process has a list of `filewrite` calls to make on the same file.  A step of a
process is one transaction of the call it is in, from `begin_op` to `end_op`, or
its return once the loop has ended.  Between two steps the rest of the kernel may do
something else.
-/

namespace Xv6.Kernel

open Xv6.Lib

structure FileCall where
  mem : UserMem
  addr : Nat
  n : Int

/-- What one transaction is to write. -/
structure Chunk where
  mem : UserMem
  addr : Nat
  len : Nat

/-- The calls a process has still to make, and how far it is in the first of them. -/
structure Writer where
  calls : List FileCall
  i : Nat

/-- `order` is what has been written, in the order of the transactions. -/
structure SharedFile where
  sys : Sys
  writer : ProcId → Writer
  order : List (ProcId × Chunk)

namespace SharedFile

inductive Act where
  | write (p : ProcId)
  | other (k : Sys)

/-- The kernel as process `p` sees it. -/
def run (s : SharedFile) (p : ProcId) : Sys :=
  { s.sys with blk := { s.sys.blk with pid := p.val }, cur := p }

def chunkAt (c : FileCall) (i : Nat) : Chunk :=
  ⟨c.mem, (c.addr + i) % 2 ^ 64, min (c.n.toNat - i) writeMax⟩

def setWriter (s : SharedFile) (p : ProcId) (w : Writer) : SharedFile :=
  { s with writer := Function.update s.writer p w }

/-- One round of the loop in `filewrite`, for call `c` of process `p` at `i`. -/
def round (f : FileId) (ip : InodeId) (s : SharedFile) (p : ProcId) (c : FileCall)
    (rest : List FileCall) (i : Nat) : Option SharedFile :=
  let x := chunkAt c i
  match filewriteChunk f ip x.mem x.addr x.len (s.run p) with
  | .error _ => none
  | .ok (r, k) =>
    let t := { s with sys := k }
    if r < 0 then
      some (t.setWriter p ⟨rest, 0⟩)
    else if r ≠ x.len then
      none
    else
      some ({ t with order := s.order ++ [(p, x)] }.setWriter p ⟨c :: rest, i + r.toNat⟩)

def step (f : FileId) (ip : InodeId) (s : SharedFile) : Act → Option SharedFile
  | .other k => some { s with sys := k }
  | .write p => match (s.writer p).calls with
    | [] => none
    | c :: rest =>
      if (s.writer p).i < c.n.toNat then round f ip s p c rest (s.writer p).i
      else some (s.setWriter p ⟨rest, 0⟩)

def start (k : Sys) (calls : ProcId → List FileCall) : SharedFile where
  sys := k
  writer := fun p => ⟨calls p, 0⟩
  order := []

end SharedFile

end Xv6.Kernel
