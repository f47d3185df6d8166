import Xv6.Kernel.Proc
import Xv6.Lib.Runs
import Mathlib.Data.Int.Basic
/-!
# Processes and CPUs

Any number of CPUs run `scheduler` and, through it, the kernel threads of the
processes: `fork`, `exit`, `wait`, `kill`, `sleep` and, when an interrupt comes,
`yield` and `wakeup`.  Every `acquire` and every `release` of a `p->lock` is a
step of its own, and so is what a thread does between two of them; `wait` and
`reparent` look at `pp->parent` without a lock, which is a step as well.  A lock
is held by a CPU, since `swtch` hands it from a thread to the scheduler and back.
`initproc` is entry 0.
-/

namespace Xv6.Kernel

open Xv6.Lib
open Function (update)

inductive ProcPc (n : Nat) where
  /-- In user space or in kernel code without a `p->lock`; `r` is the result of
  the last system call. -/
  | user (r : Int)
  /-- Before `acquire(&q->lock)`. -/
  | acquire (q : Fin n) (k : ProcPc n)
  /-- Before `release(&q->lock)`. -/
  | release (q : Fin n) (k : ProcPc n)
  /-- In `yield`, with `p->lock`; then goes on with `k`. -/
  | yield (k : ProcPc n)
  /-- In `sleep`, with `p->lock`. -/
  | sleep (a : Nat)
  /-- Back from the `sched` of `sleep`. -/
  | sleepBack
  | killScan (pid : Int) (q : Nat)
  | killLook (pid : Int) (q : Fin n)
  /-- In the loop of `allocproc`. -/
  | forkScan (q : Nat)
  | forkLook (q : Fin n)
  /-- Before `allocpid`. -/
  | forkPid (q : Fin n)
  | forkTrapframe (q : Fin n)
  | forkPagetable (q : Fin n)
  /-- Before `uvmcopy`. -/
  | forkCopy (q : Fin n)
  /-- Before `np->state = RUNNABLE`. -/
  | forkReady (q : Fin n)
  /-- In `exit`, with `initproc->lock`. -/
  | exitWake (status : Int)
  /-- Before `original_parent = p->parent`. -/
  | exitParent (status : Int)
  | reparent (status : Int) (op : Fin n) (q : Nat)
  /-- In `reparent`, with `q->lock`. -/
  | give (status : Int) (op : Fin n) (q : Fin n)
  /-- Before `wakeup1(original_parent)`. -/
  | exitWakeup (status : Int) (op : Fin n)
  /-- Before `p->xstate = status; p->state = ZOMBIE`. -/
  | exitZombie (status : Int) (op : Fin n)
  /-- Before the `sched` of `exit`. -/
  | exitSched
  | dead
  /-- In the loop of `wait`; `addr` says whether a status is asked for. -/
  | waitScan (addr : Bool) (q : Nat) (havekids : Bool)
  | waitLook (addr : Bool) (q : Fin n)
  | waitEnd (addr : Bool) (havekids : Bool)
  /-- Back from the `sched` of the `sleep` in `wait`. -/
  | waitBack (addr : Bool)

namespace ProcPc

variable {n : Nat} [NeZero n]

/-- The locks that the thread of `p` holds, the first to be released first. -/
@[simp] def held (p : Fin n) : ProcPc n → List (Fin n)
  | .user _ | .killScan _ _ | .forkScan _ => []
  | .acquire q k => (k.held p).erase q
  | .release q k => q :: k.held p
  | .yield _ | .sleep _ | .sleepBack | .exitParent _ | .exitSched | .dead | .waitScan _ _ _
  | .waitEnd _ _ | .waitBack _ => [p]
  | .killLook _ q | .forkLook q | .forkPid q | .forkTrapframe q | .forkPagetable q
  | .forkCopy q | .forkReady q => [q]
  | .exitWake _ => [0]
  | .reparent _ op _ | .exitWakeup _ op | .exitZombie _ op => [op, p]
  | .give _ op q => [q, op, p]
  | .waitLook _ q => [q, p]

end ProcPc

inductive CpuPc (n : Nat) where
  /-- In the loop of `scheduler`, before `acquire(&q->lock)`. -/
  | scan (q : Nat)
  /-- With `q->lock`. -/
  | look (q : Fin n)
  | on (q : Fin n)
  /-- Back from `swtch`. -/
  | back (q : Fin n)
  /-- Before `release(&q->lock)`. -/
  | leave (q : Fin n)
  deriving DecidableEq

/-- A successful `wait`: who called it, the pid it returns, whether a status was asked for,
and the status it stored. -/
structure Reap (n : Nat) where
  parent : Fin n
  pid : Int
  addr : Bool
  status : Option Int
  deriving DecidableEq

inductive ProcCall where
  | fork
  | exit (status : Int)
  | wait (addr : Bool)
  | kill (pid : Int)
  | sleep (a : Nat)

/-- The process table, the CPUs and the threads.  `cproc` is `c->proc`; `waking`
is the address of the `wakeup` a CPU is in, and the next entry.  The last three
fields are bookkeeping: the number of pids given out, the pid and status of
every process that exited, and the waits that succeeded. -/
structure Procs (n m : Nat) where
  proc : Fin n → Proc n
  lock : Fin n → Option (Fin m)
  pc : Fin n → ProcPc n
  cpu : Fin m → CpuPc n
  cproc : Fin m → Option (Fin n)
  waking : Fin m → Option (Nat × Nat)
  nextpid : Int
  pids : Nat
  exits : List (Int × Int)
  waits : List (Reap n)

inductive ProcAct (m : Nat) where
  | sched (c : Fin m)
  | call (c : Fin m) (k : ProcCall)
  /-- A step of the thread on `c`; `ok` tells whether a call of `kalloc` or
  `copyout` in it succeeds. -/
  | run (c : Fin m) (ok : Bool)
  | preempt (c : Fin m)
  | wakeup (c : Fin m) (a : Nat)
  /-- `wakeup` goes on. -/
  | visit (c : Fin m)

namespace Procs

variable {n m : Nat} [NeZero n]

/-- After `userinit`: only `initproc` exists, and it has not run. -/
def boot : Procs n m where
  proc := fun q => if q = 0 then { Proc.free with state := .runnable, pid := 1 } else Proc.free
  lock := fun _ => none
  pc := fun q => if q = 0 then .release 0 (.user 0) else .dead
  cpu := fun _ => .scan 0
  cproc := fun _ => none
  waking := fun _ => none
  nextpid := 2
  pids := 1
  exits := []
  waits := []

@[simps -fullyApplied]
def setProc (s : Procs n m) (q : Fin n) (x : Proc n) : Procs n m :=
  { s with proc := update s.proc q x }

@[simps -fullyApplied]
def setLock (s : Procs n m) (q : Fin n) (l : Option (Fin m)) : Procs n m :=
  { s with lock := update s.lock q l }

@[simps -fullyApplied]
def setPc (s : Procs n m) (p : Fin n) (k : ProcPc n) : Procs n m :=
  { s with pc := update s.pc p k }

@[simps -fullyApplied]
def setCpu (s : Procs n m) (c : Fin m) (k : CpuPc n) : Procs n m :=
  { s with cpu := update s.cpu c k }

@[simps -fullyApplied]
def setCproc (s : Procs n m) (c : Fin m) (p : Option (Fin n)) : Procs n m :=
  { s with cproc := update s.cproc c p }

@[simps -fullyApplied]
def setWaking (s : Procs n m) (c : Fin m) (w : Option (Nat × Nat)) : Procs n m :=
  { s with waking := update s.waking c w }

def held (s : Procs n m) (c : Fin m) : List (Fin n) :=
  match s.cpu c with
  | .scan _ => []
  | .look q | .back q | .leave q => [q]
  | .on p => (s.pc p).held p

def schedStep (s : Procs n m) (c : Fin m) : CpuPc n → Option (Procs n m)
  | .scan q => if h : q < n then
      if s.lock ⟨q, h⟩ = none then
        some ((s.setLock ⟨q, h⟩ (some c)).setCpu c (.look ⟨q, h⟩))
      else none else some (s.setCpu c (.scan 0))
  | .look q => if (s.proc q).state = .runnable then
      some (((s.setProc q { s.proc q with state := .running }).setCproc c (some q)).setCpu c
        (.on q)) else some (s.setCpu c (.leave q))
  | .on _ => none
  | .back q => some ((s.setCproc c none).setCpu c (.leave q))
  | .leave q => some ((s.setLock q none).setCpu c (.scan (q + 1)))

/-- The thread of `p` calls `sched`, and will go on at `k`. -/
@[simps! -fullyApplied]
def swtch (s : Procs n m) (c : Fin m) (p : Fin n) (x : Proc n) (k : ProcPc n) : Procs n m :=
  ((s.setProc p x).setPc p k).setCpu c (.back p)

/-- A loop over the table looks at entry `q`, or ends. -/
def scanStep (s : Procs n m) (p : Fin n) (q : Nat) (each : Fin n → ProcPc n) (done : ProcPc n) :
    Procs n m :=
  if h : q < n then s.setPc p (each ⟨q, h⟩) else s.setPc p done

/-- What the thread of `p` does next on CPU `c`; `none` while it has to wait. -/
def threadStep (s : Procs n m) (c : Fin m) (p : Fin n) (ok : Bool) : ProcPc n → Option (Procs n m)
  | .user _ | .dead => none
  | .acquire q k => if s.lock q = none then some ((s.setLock q (some c)).setPc p k) else none
  | .release q k => some ((s.setLock q none).setPc p k)
  | .yield k => some (s.swtch c p { s.proc p with state := .runnable } (.release p k))
  | .sleep a =>
    some (s.swtch c p { s.proc p with chan := some (.addr a), state := .sleeping } .sleepBack)
  | .sleepBack => some ((s.setProc p { s.proc p with chan := none }).setPc p (.release p (.user 0)))
  | .killScan pid q => some (s.scanStep p q (fun q => .acquire q (.killLook pid q)) (.user (-1)))
  | .killLook pid q => if (s.proc q).pid = pid then
      some ((s.setProc q (s.proc q).kill).setPc p (.release q (.user 0)))
    else some (s.setPc p (.release q (.killScan pid (q + 1))))
  | .forkScan q => some (s.scanStep p q (fun q => .acquire q (.forkLook q)) (.user (-1)))
  | .forkLook q => if (s.proc q).state = .unused then some (s.setPc p (.forkPid q))
    else some (s.setPc p (.release q (.forkScan (q + 1))))
  | .forkPid q =>
    some { (s.setProc q { s.proc q with pid := s.nextpid }).setPc p (.forkTrapframe q) with
      nextpid := Int.bmod (s.nextpid + 1) (2 ^ 32)
      pids := s.pids + 1 }
  | .forkTrapframe q =>
    -- without a trapframe `allocproc` gives up, and the pid stays
    if ok = true then some (s.setPc p (.forkPagetable q))
    else some (s.setPc p (.release q (.user (-1))))
  | .forkPagetable q =>
    -- the context of the new thread starts in `forkret`
    if ok = true then some ((s.setPc q (.release q (.user 0))).setPc p (.forkCopy q))
    else some ((s.setProc q .free).setPc p (.release q (.user (-1))))
  | .forkCopy q =>
    if ok = true then
      some ((s.setProc q { s.proc q with parent := some p }).setPc p (.forkReady q))
    else some ((s.setProc q .free).setPc p (.release q (.user (-1))))
  | .forkReady q =>
    some ((s.setProc q { s.proc q with state := .runnable }).setPc p
      (.release q (.user (s.proc q).pid)))
  | .exitWake st =>
    some ((s.setProc 0 ((s.proc 0).wakeup1 0)).setPc p (.release 0 (.acquire p (.exitParent st))))
  | .exitParent st =>
    match (s.proc p).parent with
    | none => none
    | some op => some (s.setPc p (.release p (.acquire op (.acquire p (.reparent st op 0)))))
  | .reparent st op q =>
    some (s.scanStep p q (fun q => if (s.proc q).parent = some p then .acquire q (.give st op q)
        else .reparent st op (q + 1))
      (.exitWakeup st op))
  | .give st op q =>
    some ((s.setProc q { s.proc q with parent := some 0 }).setPc p
      (.release q (.reparent st op (q + 1))))
  | .exitWakeup st op =>
    some ((s.setProc op ((s.proc op).wakeup1 op)).setPc p (.exitZombie st op))
  | .exitZombie st op =>
    some { (s.setProc p { s.proc p with xstate := st, state := .zombie }).setPc p
        (.release op .exitSched) with
      exits := s.exits ++ [((s.proc p).pid, st)] }
  | .exitSched => some (s.swtch c p (s.proc p) .dead)
  | .waitScan addr q kids =>
    some (s.scanStep p q (fun q => if (s.proc q).parent = some p then .acquire q (.waitLook addr q)
        else .waitScan addr (q + 1) kids)
      (.waitEnd addr kids))
  | .waitLook addr q =>
    if (s.proc q).state = .zombie then
      if addr = true ∧ ok = false then
        some (s.setPc p (.release q (.release p (.user (-1)))))
      else
        some { (s.setProc q .free).setPc p (.release q (.release p (.user (s.proc q).pid))) with
          waits := s.waits ++
            [⟨p, (s.proc q).pid, addr, if addr = true then some (s.proc q).xstate else none⟩] }
    else some (s.setPc p (.release q (.waitScan addr (q + 1) true)))
  | .waitEnd addr kids =>
    if kids = false ∨ (s.proc p).killed = true then
      some (s.setPc p (.release p (.user (-1))))
    else
      some (s.swtch c p { s.proc p with chan := some (.proc p), state := .sleeping }
        (.waitBack addr))
  | .waitBack addr =>
    some ((s.setProc p { s.proc p with chan := none }).setPc p (.waitScan addr 0 false))

/-- Where a system call starts; `initproc` may not exit. -/
def entry (p : Fin n) : ProcCall → Option (ProcPc n)
  | .fork => some (.forkScan 0)
  | .exit st => if p = 0 then none else some (.acquire 0 (.exitWake st))
  | .wait addr => some (.acquire p (.waitScan addr 0 false))
  | .kill pid => some (.killScan pid 0)
  | .sleep a => some (.acquire p (.sleep a))

def callStep (s : Procs n m) (p : Fin n) (k : ProcCall) : ProcPc n → Option (Procs n m)
  | .user _ => (entry p k).map (s.setPc p)
  | _ => none

/-- The process whose thread a CPU runs, unless it is in `wakeup`. -/
def thread (s : Procs n m) (c : Fin m) : Option (Fin n) :=
  if s.waking c = none then
    match s.cpu c with
    | .on p => some p
    | _ => none
  else none

def visitStep (s : Procs n m) (c : Fin m) : Option (Nat × Nat) → Option (Procs n m)
  | none => none
  | some (a, q) => if h : q < n then
      if s.lock ⟨q, h⟩ = none then
        some ((s.setProc ⟨q, h⟩ ((s.proc ⟨q, h⟩).wakeup a)).setWaking c (some (a, q + 1)))
      else none else some (s.setWaking c none)

def step (s : Procs n m) : ProcAct m → Option (Procs n m)
  | .sched c => if s.waking c = none then s.schedStep c (s.cpu c) else none
  | .call c k => (s.thread c).bind fun p => s.callStep p k (s.pc p)
  | .run c ok => (s.thread c).bind fun p => s.threadStep c p ok (s.pc p)
  | .preempt c => (s.thread c).bind fun p =>
    if (s.pc p).held p = [] ∧ (s.proc p).state = .running then
      some (s.setPc p (.acquire p (.yield (s.pc p)))) else none
  | .wakeup c a =>
    if s.waking c = none ∧ s.held c = [] then some (s.setWaking c (some (a, 0))) else none
  | .visit c => s.visitStep c (s.waking c)

end Procs

end Xv6.Kernel
