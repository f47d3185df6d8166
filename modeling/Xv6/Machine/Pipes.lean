import Xv6.Kernel.Pipe
import Xv6.Kernel.Proc
import Xv6.Lib.Runs
/-!
# Processes that share a pipe

The `n` processes of the process table call `pipewrite`, `piperead` and
`pipeclose` on one pipe, and any of them may be killed.  Every `acquire` and
`release` is a step of its own, and so is every round of a loop; in particular
`wakeup` looks at one process after the other, each under that process's lock,
and `sleep` takes that lock before it lets go of `pi->lock`.
-/

namespace Xv6.Kernel

open Xv6.Lib Function

/-- The addresses processes sleep on. -/
inductive PipeChan where
  | nread
  | nwrite
  deriving DecidableEq, Repr

/-- A call in progress.  `src i` is the byte at user address `addr + i`, if it
can be read; `dst i` says whether that address can be written.  `i` is the
loop variable, and `unseen` counts the bytes `pipewrite` appended since it last
called `wakeup`; the code does not keep that number. -/
inductive PipeCall where
  | write (n : Int) (src : Nat → Option UInt8) (i unseen : Nat)
  | read (n : Int) (dst : Nat → Bool) (i : Nat)
  | close (writable : Bool)

namespace PipeCall

/-- The bytes written so far have been announced to the readers. -/
def announced : PipeCall → PipeCall
  | .write n src i _ => .write n src i 0
  | c => c

end PipeCall

/-- What follows a call of `wakeup`. -/
inductive PipeNext where
  | sleep (ch : PipeChan)
  | leave (r : Int)

inductive PipePc where
  | idle
  /-- Before `acquire(&pi->lock)`. -/
  | enter (c : PipeCall)
  /-- At the head of the first loop, with `pi->lock`. -/
  | head (c : PipeCall)
  /-- In the second loop of `piperead`. -/
  | copy (n : Int) (dst : Nat → Bool) (i : Nat)
  /-- In `wakeup(ch)`, before it looks at process `q`. -/
  | wake (ch : PipeChan) (q : Nat) (c : PipeCall) (next : PipeNext)
  /-- In `sleep`, before `acquire(&p->lock)`. -/
  | sleep (ch : PipeChan) (c : PipeCall)
  /-- In `sleep`, before `release(lk)`. -/
  | letGo (ch : PipeChan) (c : PipeCall)
  /-- In `sleep`, before `p->chan = chan; p->state = SLEEPING`. -/
  | doze (ch : PipeChan) (c : PipeCall)
  /-- Switched out, but the scheduler has not released `p->lock`. -/
  | sched (ch : PipeChan) (c : PipeCall)
  | asleep (ch : PipeChan) (c : PipeCall)
  /-- Scheduled again, with `p->lock`. -/
  | woken (c : PipeCall)
  /-- In `sleep`, before `acquire(lk)`. -/
  | again (c : PipeCall)
  /-- Before the last `release(&pi->lock)`; `r` is the result. -/
  | leave (c : PipeCall) (r : Int)

/-- The fields of `struct proc` that `sleep`, `wakeup` and `kill` use. -/
structure Sleeper where
  state : Procstate
  chan : Option PipeChan
  killed : Bool
  locked : Bool

namespace Sleeper

def initial : Sleeper where
  state := .running
  chan := none
  killed := false
  locked := false

def wake (x : Sleeper) (ch : PipeChan) : Sleeper :=
  if x.state = .sleeping ∧ x.chan = some ch then { x with state := .runnable } else x

def kill (x : Sleeper) : Sleeper :=
  { x with killed := true, state := if x.state = .sleeping then .runnable else x.state }

end Sleeper

/-- The arguments of a `pipewrite`, and the room in the pipe when it got the
lock. -/
structure WriteCall where
  n : Int
  src : Nat → Option UInt8
  room : Nat

/-- The pipe and its users.  The last four fields are bookkeeping: the calls of
`pipewrite` so far, the number of the one each process is in, the bytes
appended, each with the number of its call, and the bytes removed. -/
structure Pipes (n : Nat) where
  pipe : Pipe
  lock : Option (Fin n)
  freed : Bool
  proc : Fin n → Sleeper
  pc : Fin n → PipePc
  calls : List WriteCall
  id : Fin n → Nat
  sent : List (Nat × UInt8)
  recv : List UInt8

inductive PipeAct (n : Nat) where
  | call (p : Fin n) (c : PipeCall)
  | run (p : Fin n)
  | kill (q : Fin n)

namespace Pipes

variable {n : Nat}

def init (page : Bytes PIPESIZE) : Pipes n where
  pipe := Pipe.fresh page
  lock := none
  freed := false
  proc := fun _ => Sleeper.initial
  pc := fun _ => .idle
  calls := []
  id := fun _ => 0
  sent := []
  recv := []

@[simps -fullyApplied]
def setPc (s : Pipes n) (p : Fin n) (pc : PipePc) : Pipes n :=
  { s with pc := update s.pc p pc }

@[simps -fullyApplied]
def setProc (s : Pipes n) (p : Fin n) (x : Sleeper) : Pipes n :=
  { s with proc := update s.proc p x }

@[simps -fullyApplied]
def withLock (s : Pipes n) (l : Option (Fin n)) : Pipes n := { s with lock := l }

/-- A `pipewrite` got the lock. -/
def register (s : Pipes n) (p : Fin n) : PipeCall → Pipes n
  | .write m src _ _ => { s with
      calls := s.calls ++ [⟨m, src, PIPESIZE - s.pipe.used⟩]
      id := update s.id p s.calls.length }
  | _ => s

/-- `pipewrite` appends a byte. -/
@[simps -fullyApplied]
def append (s : Pipes n) (p : Fin n) (ch : UInt8) : Pipes n :=
  { s with pipe := s.pipe.put ch, sent := s.sent ++ [(s.id p, ch)] }

/-- `piperead` removes a byte. -/
@[simps -fullyApplied]
def remove (s : Pipes n) : Pipes n :=
  { s with pipe := s.pipe.drop, recv := s.recv ++ [s.pipe.first] }

/-- One round of the loop of `pipewrite`. -/
def writeRound (s : Pipes n) (p : Fin n) (m : Int) (src : Nat → Option UInt8) (i unseen : Nat) :
    Pipes n :=
  if (i : Int) < m then
    if s.pipe.isFull = true then
      if s.pipe.readopen = false ∨ (s.proc p).killed = true then
        s.setPc p (.leave (.write m src i unseen) (-1))
      else
        s.setPc p (.wake .nread 0 (.write m src i unseen) (.sleep .nwrite))
    else
      match src i with
      | none => s.setPc p (.wake .nread 0 (.write m src i unseen) (.leave i))
      | some ch => (s.append p ch).setPc p (.head (.write m src (i + 1) (unseen + 1)))
  else
    s.setPc p (.wake .nread 0 (.write m src i unseen) (.leave i))

def readTest (s : Pipes n) (p : Fin n) (m : Int) (dst : Nat → Bool) (i : Nat) : Pipes n :=
  if s.pipe.isEmpty = true ∧ s.pipe.writeopen = true then
    if (s.proc p).killed = true then
      s.setPc p (.leave (.read m dst i) (-1))
    else
      s.setPc p (.sleep .nread (.read m dst i))
  else
    s.setPc p (.copy m dst i)

def readRound (s : Pipes n) (p : Fin n) (m : Int) (dst : Nat → Bool) (i : Nat) : Pipes n :=
  if (i : Int) < m ∧ s.pipe.isEmpty = false then
    if dst i = true then
      s.remove.setPc p (.copy m dst (i + 1))
    else
      s.remove.setPc p (.wake .nwrite 0 (.read m dst i) (.leave i))
  else
    s.setPc p (.wake .nwrite 0 (.read m dst i) (.leave i))

/-- The address `pipeclose` wakes up. -/
def closeChan (writable : Bool) : PipeChan := if writable = true then .nread else .nwrite

def headStep (s : Pipes n) (p : Fin n) : PipeCall → Pipes n
  | .write m src i unseen => s.writeRound p m src i unseen
  | .read m dst i => s.readTest p m dst i
  | .close w => { s with pipe := s.pipe.closed w }.setPc p
      (.wake (closeChan w) 0 (.close w) (.leave 0))

def wakeStep (s : Pipes n) (p : Fin n) (ch : PipeChan) (q : Nat) (c : PipeCall) (k : PipeNext) :
    Option (Pipes n) :=
  if h : q < n then
    if (s.proc ⟨q, h⟩).locked = false then
      some ((s.setProc ⟨q, h⟩ ((s.proc ⟨q, h⟩).wake ch)).setPc p (.wake ch (q + 1) c k))
    else
      none
  else
    match k with
    | .sleep ch' => some (s.setPc p (.sleep ch' c.announced))
    | .leave r => some (s.setPc p (.leave c r))

/-- The last `release` of a call; `pipeclose` frees a pipe with both ends
closed. -/
def leaveStep (s : Pipes n) (p : Fin n) (c : PipeCall) : Pipes n :=
  let t := (s.withLock none).setPc p .idle
  match c with
  | .close _ => { t with freed := !s.pipe.readopen && !s.pipe.writeopen }
  | _ => t

/-- What process `p` does next; `none` while it has to wait. -/
def runStep (s : Pipes n) (p : Fin n) : PipePc → Option (Pipes n)
  | .idle => none
  | .enter c =>
    if s.lock = none then some (((s.withLock (some p)).register p c).setPc p (.head c)) else none
  | .head c => some (s.headStep p c)
  | .copy m dst i => some (s.readRound p m dst i)
  | .wake ch q c k => s.wakeStep p ch q c k
  | .sleep ch c =>
    if (s.proc p).locked = false then
      some ((s.setProc p { s.proc p with locked := true }).setPc p (.letGo ch c))
    else none
  | .letGo ch c => some ((s.withLock none).setPc p (.doze ch c))
  | .doze ch c => some ((s.setProc p { s.proc p with chan := some ch, state := .sleeping }).setPc p
      (.sched ch c))
  | .sched ch c => some ((s.setProc p { s.proc p with locked := false }).setPc p (.asleep ch c))
  | .asleep _ c =>
    if (s.proc p).locked = false ∧ (s.proc p).state = .runnable then
      some ((s.setProc p { s.proc p with locked := true, state := .running }).setPc p (.woken c))
    else none
  | .woken c =>
    some ((s.setProc p { s.proc p with chan := none, locked := false }).setPc p (.again c))
  | .again c => if s.lock = none then some ((s.withLock (some p)).setPc p (.head c)) else none
  | .leave c _ => some (s.leaveStep p c)

/-- The start of a call: its loop variable is zero. -/
def Starts : PipeCall → Prop
  | .write _ _ i unseen => i = 0 ∧ unseen = 0
  | .read _ _ i => i = 0
  | .close _ => True

instance : ∀ c, Decidable (Starts c)
  | .write _ _ i unseen => inferInstanceAs (Decidable (i = 0 ∧ unseen = 0))
  | .read _ _ i => inferInstanceAs (Decidable (i = 0))
  | .close _ => .isTrue trivial

def isIdle : PipePc → Bool
  | .idle => true
  | _ => false

/-- One step; nobody touches a pipe that has been freed. -/
def step (s : Pipes n) : PipeAct n → Option (Pipes n)
  | .call p c =>
    if isIdle (s.pc p) = true ∧ s.freed = false ∧ Starts c then some (s.setPc p (.enter c))
    else none
  | .run p => if s.freed = false then s.runStep p (s.pc p) else none
  | .kill q => if (s.proc q).locked = false then some (s.setProc q (s.proc q).kill) else none

end Pipes

end Xv6.Kernel
