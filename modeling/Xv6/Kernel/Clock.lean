import Mathlib.Logic.Function.Iterate
/-!
# The clock

`clockintr` of `trap.c` and `sys_sleep` of `sysproc.c`.  The loop of `sys_sleep`
holds `tickslock` except inside `sleep`, so all that happens in the meantime
happens during its naps.
-/

namespace Xv6.Kernel

/-- `ticks` and `p->killed`.  The other fields are bookkeeping: the clock interrupts
and the calls of `sleep` since `sys_sleep` was entered. -/
structure Clock where
  ticks : UInt32
  killed : Bool
  elapsed : Nat
  sleeps : Nat
  deriving DecidableEq

/-- What happens during one call of `sleep(&ticks, &tickslock)`.  It returns only
after a `wakeup(&ticks)` or a `kill`. -/
structure Nap where
  clockintrs : Nat
  kill : Bool
  woken : 0 < clockintrs ∨ kill = true

namespace Clock

def clockintr (c : Clock) : Clock := { c with ticks := c.ticks + 1, elapsed := c.elapsed + 1 }

def kill (c : Clock) : Clock := { c with killed := true }

def sleep (c : Clock) (nap : Nap) : Clock :=
  let c := clockintr^[nap.clockintrs] { c with sleeps := c.sleeps + 1 }
  if nap.kill = true then c.kill else c

/-- The loop of `sys_sleep`; `none` if it is still asleep after all naps. -/
def sleepLoop (n : Int32) (ticks0 : UInt32) : List Nap → Clock → Option (Int × Clock)
  | naps, c =>
    -- the comparison is of unsigned numbers
    if c.ticks - ticks0 < n.toUInt32 then
      if c.killed = true then some (-1, c)
      else
        match naps with
        | [] => none
        | nap :: naps => sleepLoop n ticks0 naps (c.sleep nap)
    else some (0, c)

/-- On entry nothing has elapsed. -/
def entered (c : Clock) : Clock := { c with elapsed := 0, sleeps := 0 }

/-- `argint`: the argument register as an `int`. -/
def argint (a0 : UInt64) : Int32 := a0.toUInt32.toInt32

def sysSleep (a0 : UInt64) (naps : List Nap) (c : Clock) : Option (Int × Clock) :=
  sleepLoop (argint a0) c.ticks naps c.entered

end Clock

end Xv6.Kernel
