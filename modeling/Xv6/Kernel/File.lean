import Xv6.Kernel.Dir
/-!
# Open files

`file.c`.  Pipes are left out; a device answers a read or write with a number
the caller of the model supplies.
-/

namespace Xv6.Kernel

open Xv6.Lib

/-- The one device with an entry in `devsw`. -/
def CONSOLE : Int16 := 1

def getFile (f : FileId) : FsM File := Prog.gets fun k => k.ftable f

def Sys.setFile (k : Sys) (f : FileId) (x : File) : Sys :=
  { k with ftable := Function.update k.ftable f x }

def putFile (f : FileId) (x : File) : FsM Unit := Prog.modify fun k => k.setFile f x

def Sys.freeFile (k : Sys) : Option FileId :=
  (List.finRange NFILE).find? fun f => (k.ftable f).ref = 0

def filealloc : FsM (Option FileId) := do
  let k ← Prog.get
  match k.freeFile with
  | some f =>
    putFile f { k.ftable f with ref := 1 }
    pure (some f)
  | none => pure none

/-- `begin_op(); iput(ff.ip); end_op()`. -/
def putInOp (ip : InodeId) : FsM Unit := do
  lift beginOp
  iput ip
  lift endOp

def fileclose (f : FileId) : FsM Unit := do
  let x ← getFile f
  if x.ref < 1 then
    panic .fileclose
  else if x.ref - 1 > 0 then
    putFile f { x with ref := x.ref - 1 }
  else
    putFile f { x with ref := 0, kind := .none }
    match x.kind with
    | .none => pure ()
    | .inode ip => putInOp ip
    | .device ip _ => putInOp ip

/-- `f->off += r`. -/
def advance (f : FileId) (r : Nat) : FsM Unit := do
  let x ← getFile f
  putFile f { x with off := x.off + UInt32.ofNat r }

def Mem.toUser (mem : Mem) (old : UserMem) : UserMem :=
  match mem with
  | .user m => m
  | .kernel _ => old

/-- `fileread`; `answer` is what the console's read routine would return. -/
def fileread (f : FileId) (mem : UserMem) (addr : Nat) (n answer : Int) : FsM (Int × UserMem) := do
  let x ← getFile f
  if x.readable = false then
    pure (-1, mem)
  else
    match x.kind with
    | .none => panic .fileread
    | .device _ major => if major = CONSOLE then pure (answer, mem) else pure (-1, mem)
    | .inode ip =>
      ilock ip
      let r ← readi ip (.user mem) addr x.off (UInt32.ofInt n)
      advance f r.1
      iunlock ip
      pure (r.1, r.2.toUser mem)

/-- The most bytes one transaction of `filewrite` writes. -/
def writeMax : Nat := ((MAXOPBLOCKS - 1 - 1 - 2) / 2) * BSIZE

/-- One transaction of `filewrite`. -/
def filewriteChunk (f : FileId) (ip : InodeId) (mem : UserMem) (addr n : Nat) : FsM Int := do
  lift beginOp
  ilock ip
  let x ← getFile f
  let r ← writei ip (.user mem) addr x.off (UInt32.ofNat n)
  advance f r.toNat
  iunlock ip
  lift endOp
  pure r

/-- The loop of `filewrite`; the result is the final `i`.  The address `addr + i` is
a `uint64`. -/
def filewriteLoop (f : FileId) (ip : InodeId) (mem : UserMem) (addr n : Nat) : Nat → Nat → FsM Nat
  | 0, i => pure i
  | fuel + 1, i =>
    if i < n then do
      let r ← filewriteChunk f ip mem ((addr + i) % 2 ^ 64) (min (n - i) writeMax)
      if r < 0 then
        pure i
      else if r ≠ (min (n - i) writeMax : Nat) then
        panic .shortFilewrite
      else
        filewriteLoop f ip mem addr n fuel (i + r.toNat)
    else
      pure i

def filewrite (f : FileId) (mem : UserMem) (addr : Nat) (n answer : Int) : FsM Int := do
  let x ← getFile f
  if x.writable = false then
    pure (-1)
  else
    match x.kind with
    | .none => panic .filewrite
    | .device _ major => if major = CONSOLE then pure answer else pure (-1)
    | .inode ip =>
      let i ← filewriteLoop f ip mem addr n.toNat n.toNat 0
      if (i : Int) = n then pure n else pure (-1)

end Xv6.Kernel
