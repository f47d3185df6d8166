import Xv6.Kernel.Process
import Xv6.Lib.Runs
import Mathlib.Data.Fintype.Basic
/-!
# Runs of system calls

One system call after another, by any process that is running, with `kalloc`
failing whenever the environment wants it to.
-/

namespace Xv6.Kernel

namespace Kern

inductive Call where
  | fork
  | exec (path : Option (Option Exe)) (uargv : Nat)
  | sbrk (n : Int32)
  | pipe (fdarray : Nat)
  | close (fd : Fin NOFILE)
  | exit (status : UInt32)
  | wait (addr : Nat)

def syscall (L : Link) (p : ProcId) : Call → KernM Unit
  | .fork => do let _ ← fork L p; pure ()
  | .exec path uargv => do let _ ← exec L p path uargv; pure ()
  | .sbrk n => do let _ ← sbrk L p n; pure ()
  | .pipe fdarray => do let _ ← sysPipe L p fdarray; pure ()
  | .close fd => do let _ ← sysClose L p fd; pure ()
  | .exit status => exit L p status
  | .wait addr => do let _ ← wait L p addr; pure ()

/-- A call by process `p`; `deny` says which calls of `kalloc` fail in it. -/
structure Action where
  p : ProcId
  call : Call
  deny : List Bool

def withDeny (k : Kern) (deny : List Bool) : Kern := { k with phys := { k.phys with deny := deny } }

def step (L : Link) (k : Kern) (a : Action) : Option Kern :=
  if (k.proc a.p).state = .runnable then
    match syscall L a.p a.call (k.withDeny a.deny) with
    | .ok (_, k') => some k'
    | .error _ => none
  else
    none

/-- The pages on the free list, with a bound on their number. -/
def countFree (s : Phys) : Nat → Nat → Nat
  | 0, _ => 0
  | fuel + 1, pa => if pa = 0 then 0 else countFree s fuel (s.next pa) + 1

def freePages (k : Kern) : Nat := countFree k.phys (PHYSTOP / PGSIZE) k.phys.freelist

/-- The processes that one state has and the state before had not. -/
def born (k k' : Kern) : Finset ProcId :=
  Finset.univ.filter fun q => (k.proc q).state = .unused ∧ (k'.proc q).state ≠ .unused

/-- A call, with the processes `F` of a family: its members' children join it. -/
def familyStep (L : Link) (x : Kern × Finset ProcId) (a : Action) : Option (Kern × Finset ProcId) :=
  (step L x.1 a).map fun k' => (k', if a.p ∈ x.2 then x.2 ∪ born x.1 k' else x.2)

/-- The calls of the family, and those calls of `wait` by others that reap members
of it or nobody. -/
def Family (x : Kern × Finset ProcId) (a : Action) : Prop :=
  a.p ∈ x.2 ∨ ∃ addr, a.call = .wait addr ∧ ∀ q, x.1.zombieChild a.p = some q → q ∈ x.2

end Kern

end Xv6.Kernel
