import Xv6.Kernel.Param
import Mathlib.Logic.Function.Basic
/-!
# Processes

`proc.h` and the parts of `proc.c` that work on one entry of the process table.
An entry keeps the fields that `p->lock` protects.
-/

namespace Xv6.Kernel

inductive Procstate where
  | unused
  | sleeping
  | runnable
  | running
  | zombie
  deriving DecidableEq, Repr

/-- What a process sleeps on: itself in `wait`, elsewhere some other address. -/
inductive Chan (n : Nat) where
  | proc (q : Fin n)
  | addr (a : Nat)
  deriving DecidableEq, Repr

structure Proc (n : Nat) where
  state : Procstate
  parent : Option (Fin n)
  chan : Option (Chan n)
  killed : Bool
  xstate : Int
  pid : Int
  deriving DecidableEq, Repr

namespace Proc

variable {n : Nat}

/-- `freeproc`; also what `procinit` leaves. -/
def free : Proc n where
  state := .unused
  parent := none
  chan := none
  killed := false
  xstate := 0
  pid := 0

/-- The body of the loop of `wakeup`. -/
def wakeup (x : Proc n) (a : Nat) : Proc n :=
  if x.state = .sleeping ∧ x.chan = some (.addr a) then { x with state := .runnable } else x

def wakeup1 (x : Proc n) (p : Fin n) : Proc n :=
  if x.chan = some (.proc p) ∧ x.state = .sleeping then { x with state := .runnable } else x

/-- What `kill` does to its victim. -/
def kill (x : Proc n) : Proc n :=
  { x with killed := true, state := if x.state = .sleeping then .runnable else x.state }

end Proc

/-- The loop of `kill`, over the entries that are left. -/
def killLoop {n : Nat} (proc : Fin n → Proc n) (pid : Int) : List (Fin n) → Int × (Fin n → Proc n)
  | [] => (-1, proc)
  | q :: rest =>
    if (proc q).pid = pid then (0, Function.update proc q (proc q).kill)
    else killLoop proc pid rest

/-- `kill(pid)`, when nobody else uses the table. -/
def kill {n : Nat} (proc : Fin n → Proc n) (pid : Int) : Int × (Fin n → Proc n) :=
  killLoop proc pid (List.finRange n)

end Xv6.Kernel
