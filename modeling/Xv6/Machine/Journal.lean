import Xv6.Kernel.Log
import Mathlib.Data.Finset.Card
import Mathlib.Data.Finset.Image
/-!
# Processes that share the log

Any number of processes run `begin_op`, `log_write` and `end_op`.  Each critical
section under `log.lock` is one step; the tests at the head of `log_write` are
made before the lock is taken, so they are a step of their own.  The process
whose `end_op` finds no other operation outstanding runs `commit`, one disk
write or assignment at a time, while the others go on.
-/

namespace Xv6.Kernel

open Function

inductive Pc where
  | idle
  /-- Asleep in `begin_op`. -/
  | asleep
  /-- Woken up, about to test again. -/
  | woken
  | inOp
  /-- In `log_write` of a block, before the lock is taken. -/
  | checked (b : Nat)
  | commit
  | writeLog (tail : Nat)
  | writeHead
  | installTrans (tail : Nat)
  | clear
  | writeClear
  /-- Back in `end_op`, before its second critical section. -/
  | finish
  deriving DecidableEq, Repr

namespace Pc

def InOp : Pc → Prop
  | .inOp | .checked _ => True
  | _ => False

/-- Between the two critical sections of the `end_op` that commits. -/
def Commits : Pc → Prop
  | .commit | .writeLog _ | .writeHead | .installTrans _ | .clear | .writeClear | .finish => True
  | _ => False

def wake : Pc → Pc
  | .asleep => .woken
  | pc => pc

end Pc

/-- A block recorded by `log_write`: by which operation, in which commit. -/
structure Record where
  op : Nat
  epoch : Nat
  block : Nat
  deriving DecidableEq, Repr

/-- The log and its users; a panic halts the machine.  The last five fields are
bookkeeping the code does not have: the number of the operation each process
runs, the operations and commits so far, the blocks recorded, and the headers
written. -/
structure Journal (P : Type) where
  log : Log
  pc : P → Pc
  halted : Option Panic
  op : P → Nat
  nextOp : Nat
  epoch : Nat
  records : List Record
  heads : List (Nat × List Nat)

inductive Action where
  | beginOp
  | logWrite (b : Nat)
  /-- The rest of `log_write`. -/
  | record
  | endOp
  /-- The next step of a commit. -/
  | commit
  deriving DecidableEq, Repr

namespace Journal

variable {P : Type} [DecidableEq P]

def init (start size dev : Nat) : Journal P where
  log :=
    { start := start, size := size, outstanding := 0, committing := false, dev := dev, lh := [] }
  pc := fun _ => .idle
  halted := none
  op := fun _ => 0
  nextOp := 0
  epoch := 0
  records := []
  heads := []

def setPc (s : Journal P) (p : P) (pc : Pc) : Journal P :=
  { s with pc := update s.pc p pc }

def halt (s : Journal P) (e : Panic) : Journal P := { s with halted := some e }

def withLog (s : Journal P) (l : Log) : Journal P := { s with log := l }

def wakeup (s : Journal P) : Journal P := { s with pc := fun p => (s.pc p).wake }

def enter (s : Journal P) (p : P) (l : Log) : Journal P :=
  { s with
    log := l
    pc := update s.pc p .inOp
    op := update s.op p s.nextOp
    nextOp := s.nextOp + 1 }

def beginOp (s : Journal P) (p : P) : Journal P :=
  match s.log.beginPass with
  | some l => s.enter p l
  | none => s.setPc p .asleep

def logWrite (s : Journal P) (p : P) (b : Nat) : Journal P :=
  match s.log.writeCheck with
  | some e => s.halt e
  | none => s.setPc p (.checked b)

/-- The loop and the assignments of `log_write`. -/
def record (s : Journal P) (p : P) (b : Nat) : Journal P :=
  { s with
    log := s.log.record b
    pc := update s.pc p .inOp
    records := ⟨s.op p, s.epoch, b⟩ :: s.records }

def endOp (s : Journal P) (p : P) : Journal P :=
  match s.log.endPass with
  | .error e => s.halt e
  | .ok (l, true) => (s.withLog l).setPc p .commit
  | .ok (l, false) => ((s.withLog l).setPc p .idle).wakeup

/-- `write_head` before the installation. -/
def writeHead (s : Journal P) (p : P) : Journal P :=
  { s with
    pc := update s.pc p (.installTrans 0)
    heads := (s.epoch, s.log.lh) :: s.heads }

def finish (s : Journal P) (p : P) : Journal P :=
  { (s.withLog s.log.committed).setPc p .idle with epoch := s.epoch + 1 }.wakeup

/-- One step of `commit`, by where the process is. -/
def commitStep (s : Journal P) (p : P) : Pc → Option (Journal P)
  | .commit => some (s.setPc p (if 0 < s.log.lh.length then .writeLog 0 else .finish))
  | .writeLog tail =>
    some (s.setPc p (if tail < s.log.lh.length then .writeLog (tail + 1) else .writeHead))
  | .writeHead => some (s.writeHead p)
  | .installTrans tail =>
    some (s.setPc p (if tail < s.log.lh.length then .installTrans (tail + 1) else .clear))
  | .clear => some ((s.withLog (s.log.withHead [])).setPc p .writeClear)
  | .writeClear => some (s.setPc p .finish)
  | .finish => some (s.finish p)
  | _ => none

/-- What process `p` does next; `none` when it is elsewhere. -/
def act (s : Journal P) (p : P) : Action → Option (Journal P)
  | .beginOp => if s.pc p = .idle ∨ s.pc p = .woken then some (s.beginOp p) else none
  | .logWrite b => if s.pc p = .inOp then some (s.logWrite p b) else none
  | .record => match s.pc p with
    | .checked b => some (s.record p b)
    | _ => none
  | .endOp => if s.pc p = .inOp then some (s.endOp p) else none
  | .commit => s.commitStep p (s.pc p)

def step (s : Journal P) (p : P) (a : Action) : Option (Journal P) :=
  if s.halted = none then s.act p a else none

/-- The states reached from `s` by steps that all meet the condition `C`. -/
inductive Reaches (C : Journal P → P → Action → Prop) (s : Journal P) : Journal P → Prop where
  | refl : Reaches C s s
  | step {t u : Journal P} (p : P) (a : Action) :
      Reaches C s t → C t p a → t.step p a = some u → Reaches C s u

def blocksOf (s : Journal P) (o : Nat) : Finset Nat :=
  ((s.records.filter fun r => r.op = o).map Record.block).toFinset

/-- No operation logs more than `n` distinct blocks. -/
def OpBound (n : Nat) (s : Journal P) (p : P) : Action → Prop
  | .logWrite b => (insert b (s.blocksOf (s.op p))).card ≤ n
  | _ => True

instance (n : Nat) (s : Journal P) (p : P) : ∀ a, Decidable (OpBound n s p a)
  | .logWrite b => inferInstanceAs (Decidable ((insert b (s.blocksOf (s.op p))).card ≤ n))
  | .beginOp => .isTrue trivial
  | .record => .isTrue trivial
  | .endOp => .isTrue trivial
  | .commit => .isTrue trivial

/-- Run a list of steps that meet the condition. -/
def exec (C : Journal P → P → Action → Prop) [∀ s p a, Decidable (C s p a)] (s : Journal P) :
    List (P × Action) → Option (Journal P)
  | [] => some s
  | (p, a) :: rest =>
    if C s p a then
      match s.step p a with
      | some t => t.exec C rest
      | none => none
    else none

end Journal

end Xv6.Kernel
