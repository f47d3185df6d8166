import Xv6.Kernel.Console
import Xv6.Kernel.File
import Xv6.Kernel.Pipe
/-!
# Reading from every kind of file

`piperead` and `consoleread` with their copies to user memory, and `fileread` over
them.  What happens while a reader sleeps is not decided here: `piperead` is given
the pipe as its first loop leaves it, `consoleread` what becomes of the console
each time it waits for input.  Where there is none the reader was killed.
-/

namespace Xv6.Kernel

open Xv6.Lib

/-- `copyout` of one byte; the address is a `uint64`. -/
def copyoutByte (mem : UserMem) (addr : Nat) (ch : UInt8) : UserMem × Bool :=
  copyout mem (addr % 2 ^ 64) (fun _ => ch) 1

/-- The second loop of `piperead`. -/
def pipereadLoop (addr : Nat) : Nat → Nat → Pipe → UserMem → Nat × UserMem × Pipe
  | 0, i, pi, mem => (i, mem, pi)
  | fuel + 1, i, pi, mem =>
    if pi.isEmpty = true then
      (i, mem, pi)
    else
      let r := copyoutByte mem (addr + i) pi.first
      if r.2 = true then pipereadLoop addr fuel (i + 1) pi.drop r.1 else (i, r.1, pi.drop)

def piperead (waited : Option Pipe) (mem : UserMem) (addr : Nat) (n : Int) :
    (Int × UserMem) × Option Pipe :=
  match waited with
  | none => ((-1, mem), none)
  | some pi =>
    let r := pipereadLoop addr n.toNat 0 pi mem
    ((r.1, r.2.1), some r.2.2)

/-- The loop of `consoleread`; the first number is `n`. -/
def consolereadLoop (wait : Nat → Cons → Option Cons) (target : Nat) :
    Nat → Nat → Cons → UserMem → (Int × UserMem) × Option Cons
  | 0, _, cons, mem => ((target, mem), some cons)
  | n + 1, dst, cons, mem =>
    match wait (n + 1) cons with
    | none => ((-1, mem), none)
    | some s =>
      let c := s.first
      let t := s.advance
      if c = ctrl 'D' then
        (((target - (n + 1) : Nat), mem), some (if n + 1 < target then t.retreat else t))
      else
        let r := copyoutByte mem dst c
        if r.2 = false then
          (((target - (n + 1) : Nat), r.1), some t)
        else if c = newline then
          (((target - n : Nat), r.1), some t)
        else
          consolereadLoop wait target n (dst + 1) t r.1

/-- A negative `n` reads nothing. -/
def consoleread (wait : Nat → Cons → Option Cons) (cons : Cons) (mem : UserMem) (addr : Nat)
    (n : Int) : (Int × UserMem) × Option Cons :=
  consolereadLoop wait n.toNat n.toNat addr cons mem

/-- What a file is open on: a pipe, or an inode or device of the file system. -/
inductive ReadFrom where
  | pipe (waited : Option Pipe)
  | other (wait : Nat → Cons → Option Cons) (cons : Cons)

def filereadFrom (f : FileId) (src : ReadFrom) (mem : UserMem) (addr : Nat) (n : Int) :
    FsM (Int × UserMem) := do
  let x ← getFile f
  if x.readable = false then
    pure (-1, mem)
  else
    match src with
    | .pipe waited => pure (piperead waited mem addr n).1
    | .other wait cons =>
      match x.kind with
      | .device _ major =>
        if major = CONSOLE then pure (consoleread wait cons mem addr n).1 else pure (-1, mem)
      | _ => fileread f mem addr n 0

end Xv6.Kernel
