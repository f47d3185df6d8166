import Xv6.Kernel.Proc
import Xv6.Lib.Runs
/-!
# Interrupts and spinlocks

Any number of CPUs run their schedulers and, through them, the kernel threads of the
processes.  A thread calls `acquire`, `release`, `push_off` and `pop_off` as it likes,
and `sched` to give up its CPU; interrupt handlers run on the stack of the thread they
interrupt, with interrupts off.  `push_off` counts from its `intr_off()` on, after which
nothing on its CPU comes between.  A panic ends the run, and so does a count that
overflows.
-/

namespace Xv6.Kernel

open Function

/-- The scheduler of a CPU, or the kernel thread of a process. -/
inductive Thread (C P : Type) where
  | sched (c : C)
  | proc (p : P)
  deriving DecidableEq

/-- The lock of a process, or another one. -/
inductive Spinlock (P L : Type) where
  | proc (p : P)
  | other (l : L)
  deriving DecidableEq

/-- `struct cpu`, with the interrupt enable bit of the CPU; `proc` is `none` while the
scheduler runs. -/
structure Core (P : Type) where
  noff : Nat
  intena : Bool
  intr : Bool
  proc : Option P

namespace Core

variable {P : Type}

def pushOff (x : Core P) : Core P :=
  { x with
    intr := false
    intena := if x.noff = 0 then x.intr else x.intena
    noff := x.noff + 1 }

def popOff (x : Core P) : Option (Core P) :=
  if x.intr = true then none
  else if x.noff < 1 then none
  else some { x with noff := x.noff - 1, intr := x.noff - 1 = 0 ∧ x.intena = true }

end Core

/-- Where a thread that was switched out goes on: in `forkret`, or in `sched`, which has
`intena` in a local variable. -/
inductive Context where
  | forkret
  | sched (intena : Bool)
  deriving DecidableEq

/-- `spinning` is the lock that the thread on a CPU waits for in `acquire`, and `scan` the
process whose lock the scheduler has acquired or waits for.  The last two fields are
bookkeeping: the outstanding `push_off`s of each thread, and whether interrupts were on
when the count of a process last left 0. -/
structure Intr (C P L : Type) where
  cpu : C → Core P
  owner : Spinlock P L → Option C
  state : P → Procstate
  context : P → Context
  spinning : C → Option (Spinlock P L)
  scan : C → Option P
  count : Thread C P → Nat
  entry : P → Option Bool

inductive IntrAct (C P L : Type) where
  | pushOff (c : C)
  | popOff (c : C)
  | acquire (c : C) (l : Spinlock P L)
  /-- The test-and-set of `acquire` succeeds. -/
  | take (c : C)
  | release (c : C) (l : Spinlock P L)
  /-- `intr_on()`, or the return from an interrupt. -/
  | intrOn (c : C)
  /-- `intr_off()`, or an interrupt. -/
  | intrOff (c : C)
  /-- `p->state = st; sched();` -/
  | sched (c : C) (st : Procstate)
  /-- `wakeup` and `kill` make `p` `RUNNABLE`. -/
  | wakeup (c : C) (p : P)
  | freeproc (c : C) (p : P)
  /-- `allocproc` and `fork` make a new process of `p`. -/
  | fork (c : C) (p : P)
  /-- The scheduler calls `acquire(&p->lock)`. -/
  | scan (c : C) (p : P)
  /-- The scheduler switches to the process. -/
  | swtch (c : C)
  /-- The scheduler releases the lock of the process. -/
  | leave (c : C)

namespace Intr

variable {C P L : Type}

/-- The schedulers run, and there is no process. -/
def init : Intr C P L where
  cpu := fun _ => ⟨0, false, false, none⟩
  owner := fun _ => none
  state := fun _ => .unused
  context := fun _ => .forkret
  spinning := fun _ => none
  scan := fun _ => none
  count := fun _ => 0
  entry := fun _ => none

def running (s : Intr C P L) (c : C) : Thread C P :=
  (s.cpu c).proc.elim (.sched c) .proc

/-- The thread on `c` is free to act: it is not waiting in `acquire`, and it is not the
scheduler with the lock of a process. -/
def Free (s : Intr C P L) (c : C) : Prop :=
  s.spinning c = none ∧ ((s.cpu c).proc = none → s.scan c = none)

instance [DecidableEq P] [DecidableEq L] (s : Intr C P L) (c : C) : Decidable (s.Free c) :=
  inferInstanceAs (Decidable (_ ∧ _))

variable [DecidableEq C] [DecidableEq P] [DecidableEq L]

@[simps -fullyApplied]
def setCpu (s : Intr C P L) (c : C) (x : Core P) : Intr C P L :=
  { s with cpu := update s.cpu c x }

@[simps -fullyApplied]
def setOwner (s : Intr C P L) (l : Spinlock P L) (o : Option C) : Intr C P L :=
  { s with owner := update s.owner l o }

@[simps -fullyApplied]
def setSpinning (s : Intr C P L) (c : C) (l : Option (Spinlock P L)) : Intr C P L :=
  { s with spinning := update s.spinning c l }

@[simps -fullyApplied]
def setScan (s : Intr C P L) (c : C) (p : Option P) : Intr C P L :=
  { s with scan := update s.scan c p }

@[simps -fullyApplied]
def setState (s : Intr C P L) (p : P) (st : Procstate) : Intr C P L :=
  { s with state := update s.state p st }

@[simps -fullyApplied]
def setContext (s : Intr C P L) (p : P) (k : Context) : Intr C P L :=
  { s with context := update s.context p k }

/-- The count of a thread changes to `n`, and with it what is known of its entries. -/
@[simps -fullyApplied]
def setCount (s : Intr C P L) (th : Thread C P) (n : Nat) (entry : P → Option Bool) : Intr C P L :=
  { s with count := update s.count th n, entry := entry }

def pushOff (s : Intr C P L) (c : C) : Option (Intr C P L) :=
  if (s.cpu c).noff + 1 < 2 ^ 31 then
    some ((s.setCpu c (s.cpu c).pushOff).setCount (s.running c) (s.count (s.running c) + 1)
      fun p => if (s.cpu c).proc = some p ∧ s.count (.proc p) = 0 then some (s.cpu c).intr
        else s.entry p)
  else none

def popOff (s : Intr C P L) (c : C) : Option (Intr C P L) :=
  (s.cpu c).popOff.map fun x =>
    (s.setCpu c x).setCount (s.running c) (s.count (s.running c) - 1) s.entry

def acquire (s : Intr C P L) (c : C) (l : Spinlock P L) : Option (Intr C P L) :=
  (s.pushOff c).bind fun s => if s.owner l = some c then none else some (s.setSpinning c (some l))

def release (s : Intr C P L) (c : C) (l : Spinlock P L) : Option (Intr C P L) :=
  if s.owner l = some c then (s.setOwner l none).popOff c else none

/-- `sched` called by the thread of `p`. -/
def sched (s : Intr C P L) (c : C) (p : P) (st : Procstate) : Option (Intr C P L) :=
  if s.owner (.proc p) ≠ some c then none
  else if (s.cpu c).noff ≠ 1 then none
  else if st = .running then none
  else if (s.cpu c).intr = true then none
  else
    some (((s.setState p st).setContext p (.sched (s.cpu c).intena)).setCpu c
      { s.cpu c with proc := none })

def swtch (s : Intr C P L) (c : C) (p : P) : Intr C P L :=
  (s.setState p .running).setCpu c
    { s.cpu c with
      proc := some p
      intena := match s.context p with
        | .forkret => (s.cpu c).intena
        | .sched intena => intena }

def step (s : Intr C P L) : IntrAct C P L → Option (Intr C P L)
  | .pushOff c => if s.Free c then s.pushOff c else none
  | .popOff c => if s.Free c then s.popOff c else none
  | .acquire c l => if s.Free c then s.acquire c l else none
  | .take c => (s.spinning c).bind fun l =>
      if s.owner l = none then some ((s.setOwner l (some c)).setSpinning c none) else none
  | .release c l => if s.Free c then s.release c l else none
  | .intrOn c =>
    if s.Free c ∧ (s.cpu c).noff = 0 then some (s.setCpu c { s.cpu c with intr := true }) else none
  | .intrOff c =>
    if s.Free c ∧ (s.cpu c).noff = 0 then some (s.setCpu c { s.cpu c with intr := false }) else none
  | .sched c st => if s.Free c then (s.cpu c).proc.bind fun p => s.sched c p st else none
  | .wakeup c p =>
    if s.owner (.proc p) = some c ∧ s.state p = .sleeping then some (s.setState p .runnable)
    else none
  | .freeproc c p =>
    if s.owner (.proc p) = some c ∧ s.state p = .zombie then some (s.setState p .unused) else none
  | .fork c p =>
    if s.owner (.proc p) = some c ∧ s.state p = .unused then
      -- the new thread starts with the lock that its scheduler acquires for it
      some (((s.setState p .runnable).setContext p .forkret).setCount (.proc p) 1
        (update s.entry p none))
    else none
  | .scan c p =>
    if s.Free c ∧ (s.cpu c).proc = none ∧ (s.cpu c).noff = 0 then
      (s.acquire c (.proc p)).map (·.setScan c (some p))
    else none
  | .swtch c => (s.scan c).bind fun p =>
      if s.spinning c = none ∧ (s.cpu c).proc = none ∧ s.state p = .runnable then
        some (s.swtch c p)
      else none
  | .leave c => (s.scan c).bind fun p =>
      if s.spinning c = none ∧ (s.cpu c).proc = none then
        (s.setScan c none).release c (.proc p)
      else none

end Intr

end Xv6.Kernel
