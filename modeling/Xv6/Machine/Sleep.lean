import Xv6.Kernel.Proc
import Xv6.Lib.Runs
import Mathlib.Data.Int.Basic
/-!
# Processes that sleep and wake each other up

The processes of a table of `n` entries take spinlocks from a family `Λ`, call
`sleep(chan, lk)` with one of them, `wakeup(chan)` and `kill(pid)`.  Every `acquire`
and `release`, and every assignment that `sleep` makes, is a step of its own; so is
what `wakeup` and `kill` do to one entry under its `p->lock`.  The scheduler takes a
`p->lock` on behalf of some cpu, and may run the process when it is `RUNNABLE`.
-/

namespace Xv6.Kernel

open Xv6.Lib Function

/-- Who has a `p->lock`: the thread of a process, or the scheduler of some cpu. -/
inductive Holder (n : Nat) where
  | proc (p : Fin n)
  | sched
  deriving DecidableEq

inductive SleepPc (n : Nat) (Λ : Type) where
  /-- Not in one of the three functions. -/
  | run
  /-- In `sleep(a, l)`, before `acquire(&p->lock)`. -/
  | lockSelf (a : Nat) (l : Λ)
  /-- Before `release(lk)`. -/
  | letGo (a : Nat) (l : Λ)
  /-- Before `p->chan = chan`. -/
  | setChan (a : Nat) (l : Λ)
  /-- Before `p->state = SLEEPING`. -/
  | setState (a : Nat) (l : Λ)
  /-- Before `sched()`. -/
  | sched (a : Nat) (l : Λ)
  /-- The scheduler has the cpu. -/
  | away (a : Nat) (l : Λ)
  /-- Back from `sched()`, before `p->chan = 0`. -/
  | clearChan (l : Λ)
  /-- Before `release(&p->lock)`. -/
  | unlockSelf (l : Λ)
  /-- Before `acquire(lk)`. -/
  | again (l : Λ)
  /-- In `wakeup(a)`, before it takes the lock of entry `q`. -/
  | wake (a : Nat) (q : Nat)
  | wakeLook (a : Nat) (q : Fin n)
  /-- Before `wakeup` releases the lock of entry `q`. -/
  | wakeNext (a : Nat) (q : Fin n)
  /-- In `kill(pid)`, before it takes the lock of entry `q`. -/
  | kill (pid : Int) (q : Nat)
  | killLook (pid : Int) (q : Fin n)
  /-- Before `kill` releases the lock of entry `q`. -/
  | killNext (pid : Int) (q : Fin n) (found : Bool)

/-- The process table and the spinlocks.  `woken` counts how often a process was made
`RUNNABLE` by `wakeup` or `kill`. -/
structure Sleepers (n : Nat) (Λ : Type) where
  owner : Λ → Option (Fin n)
  proc : Fin n → Proc n
  lock : Fin n → Option (Holder n)
  pc : Fin n → SleepPc n Λ
  woken : Fin n → Nat

inductive SleepAct (n : Nat) (Λ : Type) where
  | acquire (p : Fin n) (l : Λ)
  | release (p : Fin n) (l : Λ)
  /-- Process `p` has tested its condition and calls `sleep(a, l)`. -/
  | sleep (p : Fin n) (a : Nat) (l : Λ)
  | wakeup (p : Fin n) (a : Nat)
  | kill (p : Fin n) (pid : Int)
  /-- A step of `sleep`, `wakeup` or `kill`. -/
  | run (p : Fin n)
  | look (q : Fin n)
  | dispatch (q : Fin n)
  | leave (q : Fin n)

namespace Sleepers

variable {n : Nat} {Λ : Type} [DecidableEq Λ]

/-- Every process is running. -/
def init (pid : Fin n → Int) : Sleepers n Λ where
  owner := fun _ => none
  proc := fun p => { Proc.free with state := .running, pid := pid p }
  lock := fun _ => none
  pc := fun _ => .run
  woken := fun _ => 0

@[simps -fullyApplied owner lock proc woken]
def setPc (s : Sleepers n Λ) (p : Fin n) (pc : SleepPc n Λ) : Sleepers n Λ :=
  { s with pc := update s.pc p pc }

@[simps -fullyApplied pc lock proc]
def setOwner (s : Sleepers n Λ) (l : Λ) (o : Option (Fin n)) : Sleepers n Λ :=
  { s with owner := update s.owner l o }

@[simps -fullyApplied pc owner proc]
def setLock (s : Sleepers n Λ) (q : Fin n) (h : Option (Holder n)) : Sleepers n Λ :=
  { s with lock := update s.lock q h }

@[simps -fullyApplied pc owner lock]
def setProc (s : Sleepers n Λ) (q : Fin n) (x : Proc n) : Sleepers n Λ :=
  { s with proc := update s.proc q x }

/-- An entry is changed by `wakeup` or `kill`. -/
@[simps -fullyApplied proc pc owner lock]
def rouse (s : Sleepers n Λ) (q : Fin n) (x : Proc n) : Sleepers n Λ :=
  { s with
    proc := update s.proc q x
    woken := if x.state = (s.proc q).state then s.woken
      else update s.woken q (s.woken q + 1) }

/-- Take the lock of entry `q`, or be done with the table. -/
def scan (s : Sleepers n Λ) (p : Fin n) (q : Nat) (look : Fin n → SleepPc n Λ) :
    Option (Sleepers n Λ) :=
  if h : q < n then
    if s.lock ⟨q, h⟩ = none then
      some ((s.setLock ⟨q, h⟩ (some (.proc p))).setPc p (look ⟨q, h⟩))
    else none
  else some (s.setPc p .run)

/-- What process `p` does next in `sleep`, `wakeup` or `kill`; `none` while it has to
wait. -/
def runStep (s : Sleepers n Λ) (p : Fin n) : SleepPc n Λ → Option (Sleepers n Λ)
  | .run => none
  | .lockSelf a l =>
    if s.lock p = none then some ((s.setLock p (some (.proc p))).setPc p (.letGo a l)) else none
  | .letGo a l => some ((s.setOwner l none).setPc p (.setChan a l))
  | .setChan a l =>
    some ((s.setProc p { s.proc p with chan := some (.addr a) }).setPc p (.setState a l))
  | .setState a l => some ((s.setProc p { s.proc p with state := .sleeping }).setPc p (.sched a l))
  | .sched a l => some ((s.setLock p (some .sched)).setPc p (.away a l))
  | .away _ _ => none
  | .clearChan l => some ((s.setProc p { s.proc p with chan := none }).setPc p (.unlockSelf l))
  | .unlockSelf l => some ((s.setLock p none).setPc p (.again l))
  | .again l => if s.owner l = none then some ((s.setOwner l (some p)).setPc p .run) else none
  | .wake a q => s.scan p q (.wakeLook a)
  | .wakeLook a q => some ((s.rouse q ((s.proc q).wakeup a)).setPc p (.wakeNext a q))
  | .wakeNext a q => some ((s.setLock q none).setPc p (.wake a (q + 1)))
  | .kill pid q => s.scan p q (.killLook pid)
  | .killLook pid q =>
    if (s.proc q).pid = pid then
      some ((s.rouse q (s.proc q).kill).setPc p (.killNext pid q true))
    else some (s.setPc p (.killNext pid q false))
  | .killNext pid q found =>
    some ((s.setLock q none).setPc p (if found = true then .run else .kill pid (q + 1)))

/-- Process `q` runs again, with its `p->lock`. -/
def dispatchStep (s : Sleepers n Λ) (q : Fin n) : SleepPc n Λ → Option (Sleepers n Λ)
  | .away _ l =>
    if s.lock q = some .sched ∧ (s.proc q).state = .runnable then
      some (((s.setProc q { s.proc q with state := .running }).setLock q (some (.proc q))).setPc q
        (.clearChan l))
    else none
  | _ => none

def isRun : SleepPc n Λ → Bool
  | .run => true
  | _ => false

def step (s : Sleepers n Λ) : SleepAct n Λ → Option (Sleepers n Λ)
  | .acquire p l =>
    if isRun (s.pc p) = true ∧ s.owner l = none then some (s.setOwner l (some p)) else none
  | .release p l =>
    if isRun (s.pc p) = true ∧ s.owner l = some p then some (s.setOwner l none) else none
  | .sleep p a l =>
    if isRun (s.pc p) = true ∧ s.owner l = some p then some (s.setPc p (.lockSelf a l)) else none
  | .wakeup p a => if isRun (s.pc p) = true then some (s.setPc p (.wake a 0)) else none
  | .kill p pid => if isRun (s.pc p) = true then some (s.setPc p (.kill pid 0)) else none
  | .run p => s.runStep p (s.pc p)
  | .look q => if s.lock q = none then some (s.setLock q (some .sched)) else none
  | .dispatch q => s.dispatchStep q (s.pc q)
  | .leave q => if s.lock q = some .sched then some (s.setLock q none) else none

end Sleepers

/-! ## Sleep-locks -/

/-- Where a process is in `acquiresleep` and `releasesleep`; inside `sleep`, `wakeup` or
`kill` it is where it returns to. -/
inductive LockPc where
  | idle
  /-- In `acquiresleep`, before `acquire(&lk->lk)`. -/
  | enter
  /-- Before the test of `lk->locked`. -/
  | test
  /-- Before `lk->locked = 1`. -/
  | setLocked
  | setPid
  /-- Before `release(&lk->lk)`. -/
  | done
  /-- Between `acquiresleep` and `releasesleep`. -/
  | holding
  /-- In `releasesleep`, before `acquire(&lk->lk)`. -/
  | back
  /-- Before `lk->locked = 0`. -/
  | clearLocked
  | clearPid
  /-- Before `wakeup(lk)`. -/
  | wakeup
  /-- Before `release(&lk->lk)`. -/
  | leave
  deriving DecidableEq, Repr

/-- A sleep-lock and its users.  Its spinlock is the only one there is, and its
address is 0. -/
structure Sleeplocks (n : Nat) where
  base : Sleepers n Unit
  locked : Bool
  pid : Int
  pc : Fin n → LockPc

inductive LockAct (n : Nat) where
  | acquiresleep (p : Fin n)
  | releasesleep (p : Fin n)
  | kill (p : Fin n) (pid : Int)
  | run (p : Fin n)
  | look (q : Fin n)
  | dispatch (q : Fin n)
  | leave (q : Fin n)

namespace Sleeplocks

variable {n : Nat}

def init (pid : Fin n → Int) : Sleeplocks n where
  base := Sleepers.init pid
  locked := false
  pid := 0
  pc := fun _ => .idle

def setPc (s : Sleeplocks n) (p : Fin n) (pc : LockPc) : Sleeplocks n :=
  { s with pc := update s.pc p pc }

/-- Take a step of the process table and go on at `pc`. -/
def call (s : Sleeplocks n) (a : SleepAct n Unit) (p : Fin n) (pc : LockPc) :
    Option (Sleeplocks n) :=
  (s.base.step a).map fun b => { s with base := b }.setPc p pc

/-- The code of `acquiresleep` and `releasesleep`. -/
def lockStep (s : Sleeplocks n) (p : Fin n) : LockPc → Option (Sleeplocks n)
  | .idle => none
  | .enter => s.call (.acquire p ()) p .test
  | .test => if s.locked = true then s.call (.sleep p 0 ()) p .test else some (s.setPc p .setLocked)
  | .setLocked => some ({ s with locked := true }.setPc p .setPid)
  | .setPid => some ({ s with pid := (s.base.proc p).pid }.setPc p .done)
  | .done => s.call (.release p ()) p .holding
  | .holding => none
  | .back => s.call (.acquire p ()) p .clearLocked
  | .clearLocked => some ({ s with locked := false }.setPc p .clearPid)
  | .clearPid => some ({ s with pid := 0 }.setPc p .wakeup)
  | .wakeup => s.call (.wakeup p 0) p .leave
  | .leave => s.call (.release p ()) p .idle

def step (s : Sleeplocks n) : LockAct n → Option (Sleeplocks n)
  | .acquiresleep p =>
    if Sleepers.isRun (s.base.pc p) = true ∧ s.pc p = .idle then some (s.setPc p .enter) else none
  | .releasesleep p =>
    if Sleepers.isRun (s.base.pc p) = true ∧ s.pc p = .holding then some (s.setPc p .back) else none
  | .kill p pid =>
    if s.pc p = .idle ∨ s.pc p = .holding then s.call (.kill p pid) p (s.pc p) else none
  | .run p => if Sleepers.isRun (s.base.pc p) = true then s.lockStep p (s.pc p)
    else s.call (.run p) p (s.pc p)
  | .look q => s.call (.look q) q (s.pc q)
  | .dispatch q => s.call (.dispatch q) q (s.pc q)
  | .leave q => s.call (.leave q) q (s.pc q)

end Sleeplocks

end Xv6.Kernel
