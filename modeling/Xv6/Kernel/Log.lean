import Xv6.Kernel.Bio
/-!
# The log

`log.c`.  The three critical sections under `log.lock` (`begin_op`'s test, the
first half of `end_op` and the recording in `log_write`) are functions on the
log record, so that a single thread and a set of interleaved threads run the
same code.
-/

namespace Xv6.Kernel

open Xv6.Lib

/-! ## The on-disk header

`struct logheader` is an `int n` followed by `int block[LOGSIZE]`. -/

/-- The block numbers a header block names.  A negative `n` names none, as in
the loops that read it. -/
def headNames (b : Block) : List Nat :=
  (List.range (b.u32 0).toInt32.toInt.toNat).map fun i => (b.u32 (4 + 4 * i)).toNat

/-- `hb->n = n; hb->block[i] = block[i]` for each recorded block. -/
def headStore (names : List Nat) (b : Block) : Block :=
  (List.range names.length).foldl
    (fun b i => b.setU32 (4 + 4 * i) (UInt32.ofNat (names.getD i 0)))
    (b.setU32 0 (UInt32.ofNat names.length))

/-! ## Critical sections -/

namespace Log

/-- One pass of `begin_op`'s loop; `none` when the process goes to sleep. -/
def beginPass (l : Log) : Option Log :=
  if l.committing then none
  else if (l.lh.length : Int) + (l.outstanding + 1) * MAXOPBLOCKS > LOGSIZE then none
  else some { l with outstanding := l.outstanding + 1 }

/-- The first critical section of `end_op`; the flag is `do_commit`. -/
def endPass (l : Log) : Except Panic (Log × Bool) :=
  if l.committing then .error .logCommitting
  else if l.outstanding - 1 = 0 then
    .ok ({ l with outstanding := l.outstanding - 1, committing := true }, true)
  else
    .ok ({ l with outstanding := l.outstanding - 1 }, false)

/-- The tests `log_write` makes before it takes the lock. -/
def writeCheck (l : Log) : Option Panic :=
  if LOGSIZE ≤ l.lh.length ∨ (l.size : Int) - 1 ≤ l.lh.length then some .tooBigTransaction
  else if l.outstanding < 1 then some .logWriteOutside
  else none

/-- The recording in `log_write`: an already recorded block is absorbed. -/
def record (l : Log) (b : Nat) : Log :=
  if b ∈ l.lh then l else { l with lh := l.lh ++ [b] }

def withHead (l : Log) (names : List Nat) : Log := { l with lh := names }

def committed (l : Log) : Log := { l with committing := false }

end Log

/-! ## The functions of `log.c` -/

def getLog : BlkM Log := Prog.gets Blk.log

def putLog (l : Log) : BlkM Unit := Prog.modify fun s => s.withLog l

/-- One round of `install_trans`. -/
def installBlock (tail : Nat) : BlkM Unit := do
  let l ← getLog
  let lbuf ← bread l.dev (l.start + tail + 1)
  let dbuf ← bread l.dev (l.lh.getD tail 0)
  let d ← bdata lbuf
  setData dbuf d
  bwrite dbuf
  bunpin dbuf
  brelse lbuf
  brelse dbuf

def installTrans : BlkM Unit := do
  let l ← getLog
  Prog.forRange installBlock 0 l.lh.length

def readHead : BlkM Unit := do
  let l ← getLog
  let buf ← bread l.dev l.start
  let d ← bdata buf
  putLog (l.withHead (headNames d))
  brelse buf

def writeHead : BlkM Unit := do
  let l ← getLog
  let buf ← bread l.dev l.start
  let d ← bdata buf
  setData buf (headStore l.lh d)
  bwrite buf
  brelse buf

def clearHead : BlkM Unit := Prog.modify fun s => s.withLog (s.log.withHead [])

def recoverFromLog : BlkM Unit := do
  readHead
  installTrans
  clearHead
  writeHead

def initlog (dev logstart nlog : Nat) : BlkM Unit := do
  if BSIZE ≤ 4 + 4 * LOGSIZE then
    panic .initlogTooBig
  else
    Prog.modify fun s => s.withLog { s.log with start := logstart, size := nlog, dev := dev }
    recoverFromLog

/-- A thread on its own cannot be woken, so going to sleep ends it here. -/
def beginOp : BlkM Unit := do
  let l ← getLog
  match l.beginPass with
  | some l' => putLog l'
  | none => Prog.stop .sleep

/-- One round of `write_log`. -/
def copyBlock (tail : Nat) : BlkM Unit := do
  let l ← getLog
  let tobuf ← bread l.dev (l.start + tail + 1)
  let frombuf ← bread l.dev (l.lh.getD tail 0)
  let d ← bdata frombuf
  setData tobuf d
  bwrite tobuf
  brelse frombuf
  brelse tobuf

def writeLog : BlkM Unit := do
  let l ← getLog
  Prog.forRange copyBlock 0 l.lh.length

def commit : BlkM Unit := do
  let l ← getLog
  if 0 < l.lh.length then
    writeLog
    writeHead
    installTrans
    clearHead
    writeHead
  else
    pure ()

def endOp : BlkM Unit := do
  let l ← getLog
  match l.endPass with
  | .error p => panic p
  | .ok (l', doCommit) =>
    putLog l'
    if doCommit = true then
      commit
      Prog.modify fun s => s.withLog s.log.committed
    else
      pure ()

def logWrite (i : BufId) : BlkM Unit := do
  let l ← getLog
  match l.writeCheck with
  | some p => panic p
  | none =>
    let b ← getBuf i
    if b.blockno ∈ l.lh then
      pure ()
    else
      bpin i
      putLog (l.record b.blockno)

/-- The machine as it is switched on: an empty cache, a zeroed log record, and
whatever the disk holds. -/
def powerOn (pid : Nat) (disk : Nat → Block) : Blk where
  disk := disk
  writes := []
  buf := fun _ => Buf.initial
  lru := binit
  log := { start := 0, size := 0, outstanding := 0, committing := false, dev := 0, lh := [] }
  pid := pid

end Xv6.Kernel
