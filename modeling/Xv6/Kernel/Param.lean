import Xv6.Lib.Program
import Xv6.Lib.Bytes
import Mathlib.Algebra.Group.Nat.Defs
/-!
# Parameters of the kernel

The constants of `param.h`, `fs.h` and `stat.h`, and the reasons for which a
kernel thread stops.
-/

namespace Xv6.Kernel

open Xv6.Lib

def NPROC : Nat := 64
def NOFILE : Nat := 16
def NFILE : Nat := 100
def NINODE : Nat := 50
def NDEV : Nat := 10
def ROOTDEV : Nat := 1
def MAXOPBLOCKS : Nat := 10
def LOGSIZE : Nat := MAXOPBLOCKS * 3
def NBUF : Nat := MAXOPBLOCKS * 3
def MAXPATH : Nat := 128

def ROOTINO : Nat := 1
def BSIZE : Nat := 1024

theorem NPROC_pos : 0 < NPROC := Nat.zero_lt_succ 63

abbrev ProcId : Type := Fin NPROC

abbrev Block : Type := Bytes BSIZE

/-- The panics of `bio.c`, `log.c`, `fs.c`, `file.c`, `sysfile.c` and
`proc.c`'s `exit`, and that of `trap.c` when the kernel follows a null
pointer. -/
inductive Panic where
  | bgetNoBuffers
  | bwrite
  | brelse
  | initlogTooBig
  | logCommitting
  | tooBigTransaction
  | logWriteOutside
  | invalidFileSystem
  | ballocOutOfBlocks
  | freeingFreeBlock
  | iallocNoInodes
  | igetNoInodes
  | ilock
  | ilockNoType
  | iunlock
  | bmapOutOfRange
  | dirlookupNotDir
  | dirlookupRead
  | dirlinkRead
  | dirlink
  | isdiremptyReadi
  | unlinkNlink
  | unlinkWritei
  | createDots
  | createDirlink
  | filedup
  | fileclose
  | fileread
  | filewrite
  | shortFilewrite
  | initExiting
  | kerneltrap
  deriving DecidableEq, Repr

/-- Why a kernel thread does not go on: it panicked, or it sleeps until some
other thread lets it continue. -/
inductive Stop where
  | panic (p : Panic)
  | sleep
  deriving DecidableEq, Repr

end Xv6.Kernel
