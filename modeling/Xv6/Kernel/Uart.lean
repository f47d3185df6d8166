import Xv6.Kernel.Proc
/-!
# Console output

`consolewrite` and what it calls: `uartputc` and `uartstart` of `uart.c`, `sleep` and
`sched` of `proc.c`, and the locks of `spinlock.c` with their count of nested
`push_off`s.  The thread that writes runs on one cpu; interrupt handlers run on
the others at any time, and on this one only while the thread sleeps.
-/

namespace Xv6.Kernel

open Xv6.Lib

def UART_TX_BUF_SIZE : Nat := 32

/-- The transmit buffer and the device.  `lsr` are the answers the device will give
when the writing thread asks whether it is idle; after them it is busy.  `irq` is
what happens until the thread gets `uart_tx_lock` the next times: an interrupt
handler runs, with the answers it gets, or it is the thread's turn. -/
structure Uart where
  buf : Bytes UART_TX_BUF_SIZE
  w : Nat
  r : Nat
  thr : List UInt8
  lsr : List Bool
  irq : List (Option (List Bool))

namespace Uart

/-- `((uart_tx_w + 1) % UART_TX_BUF_SIZE) == uart_tx_r`. -/
def isFull (u : Uart) : Bool := (u.w + 1) % UART_TX_BUF_SIZE = u.r

def isEmpty (u : Uart) : Bool := u.w = u.r

/-- The oldest character goes to the device. -/
def send (u : Uart) : Uart :=
  { u with
    r := (u.r + 1) % UART_TX_BUF_SIZE
    thr := u.thr ++ [u.buf.get u.r] }

/-- A character is appended to the buffer. -/
def append (u : Uart) (c : UInt8) : Uart :=
  { u with
    buf := u.buf.set u.w c
    w := (u.w + 1) % UART_TX_BUF_SIZE }

/-- `uartstart` in an interrupt handler. -/
def start : List Bool → Uart → Uart
  | [], u => u
  | idle :: rest, u => if u.isEmpty = true then u else if idle = true then start rest u.send else u

/-- The interrupt handlers that run before the thread gets the lock. -/
def interrupts : List (Option (List Bool)) → Uart → Uart
  | [], u => { u with irq := [] }
  | none :: rest, u => { u with irq := rest }
  | some answers :: rest, u => interrupts rest (u.start answers)

/-- The interrupt handlers that run while the thread sleeps, up to the one that
wakes it up; `none` if none does. -/
def untilWoken : List (Option (List Bool)) → Uart → Option Uart
  | [], _ => none
  | none :: rest, u => untilWoken rest u
  | some answers :: rest, u =>
    if (u.start answers).r = u.r then untilWoken rest u
    else some { u.start answers with irq := rest }

end Uart

/-- The locks the thread takes: `cons.lock`, `uart_tx_lock`, and `p->lock` of its own
process. -/
inductive OutLock where
  | cons
  | uart
  | proc
  deriving DecidableEq, Repr

/-- Why the thread does not go on. -/
inductive OutStop where
  | acquire
  | release
  | popOffInterruptible
  | popOff
  | schedLock
  | schedLocks
  | schedRunning
  | schedInterruptible
  /-- No interrupt wakes it up. -/
  | asleep
  deriving DecidableEq, Repr

/-- The text each panic prints. -/
def OutStop.text : OutStop → String
  | .acquire => "acquire"
  | .release => "release"
  | .popOffInterruptible => "pop_off - interruptible"
  | .popOff => "pop_off"
  | .schedLock => "sched p->lock"
  | .schedLocks => "sched locks"
  | .schedRunning => "sched running"
  | .schedInterruptible => "sched interruptible"
  | .asleep => ""

/-- The cpu, the locks it holds, and the state of the process that runs on it. -/
structure Out where
  noff : Nat
  intena : Bool
  intr : Bool
  held : OutLock → Bool
  state : Procstate
  uart : Uart

namespace Out

abbrev OutM : Type → Type := Prog Out OutStop

def pushed (s : Out) : Out :=
  { s with
    intr := false
    intena := if s.noff = 0 then s.intr else s.intena
    noff := s.noff + 1 }

def pushOff : OutM Unit := Prog.modify pushed

def popped (s : Out) : Out :=
  { s with
    noff := s.noff - 1
    intr := if s.noff - 1 = 0 ∧ s.intena = true then true else s.intr }

def popOff : OutM Unit := do
  let s ← Prog.get
  if s.intr = true then Prog.stop .popOffInterruptible
  else if s.noff < 1 then Prog.stop .popOff
  else Prog.modify popped

def setHeld (s : Out) (lk : OutLock) (b : Bool) : Out :=
  { s with held := Function.update s.held lk b }

/-- `acquire`, once the lock is free. -/
def acquire (lk : OutLock) : OutM Unit := do
  pushOff
  let s ← Prog.get
  if s.held lk = true then Prog.stop .acquire else Prog.modify fun s => s.setHeld lk true

def release (lk : OutLock) : OutM Unit := do
  let s ← Prog.get
  if s.held lk = false then
    Prog.stop .release
  else do
    Prog.modify fun s => s.setHeld lk false
    popOff

/-- Other threads run until this one is woken up and scheduled again. -/
def swtch : OutM Unit := fun s =>
  match s.uart.untilWoken s.uart.irq with
  | some u => .ok ((), { s with uart := u, state := .running })
  | none => .error .asleep

def sched : OutM Unit := do
  let s ← Prog.get
  if s.held .proc = false then Prog.stop .schedLock
  else if s.noff ≠ 1 then Prog.stop .schedLocks
  else if s.state = .running then Prog.stop .schedRunning
  else if s.intr = true then Prog.stop .schedInterruptible
  else do
    let intena := s.intena
    swtch
    Prog.modify fun s => { s with intena := intena }

/-- `sleep(&uart_tx_r, &uart_tx_lock)`. -/
def sleep : OutM Unit := do
  acquire .proc
  release .uart
  Prog.modify fun s => { s with state := .sleeping }
  sched
  release .proc
  acquire .uart

/-- What `wakeup` does with the entry of the running process. -/
def wakeup : OutM Unit := do
  acquire .proc
  release .proc

/-- `uartstart` in the writing thread. -/
def uartstart : List Bool → OutM Unit
  | [] => Prog.modify fun s => { s with uart := { s.uart with lsr := [] } }
  | idle :: rest => do
      let s ← Prog.get
      if s.uart.isEmpty = true then
        Prog.modify fun s => { s with uart := { s.uart with lsr := idle :: rest } }
      else if idle = true then do
        Prog.modify fun s => { s with uart := s.uart.send }
        wakeup
        uartstart rest
      else
        Prog.modify fun s => { s with uart := { s.uart with lsr := rest } }

/-- The loop of `uartputc`.  Each `sleep` ends with an interrupt, so there are no
more rounds than interrupts to come, and the last one. -/
def putLoop (c : UInt8) : Nat → OutM Unit
  | 0 => Prog.stop .asleep
  | fuel + 1 => do
      let s ← Prog.get
      if s.uart.isFull = true then do
        sleep
        putLoop c fuel
      else do
        Prog.modify fun s => { s with uart := s.uart.append c }
        uartstart s.uart.lsr
        release .uart

def uartputc (c : UInt8) : OutM Unit := do
  Prog.modify fun s => { s with uart := s.uart.interrupts s.uart.irq }
  acquire .uart
  let s ← Prog.get
  putLoop c (s.uart.irq.length + 1)

/-- The loop of `consolewrite`: `n` characters are left, of which the first is
`src i`, if it can be read. -/
def writeLoop (src : Nat → Option UInt8) : Nat → Nat → OutM Nat
  | 0, i => pure i
  | n + 1, i =>
    match src i with
    | none => pure i
    | some c => do
        uartputc c
        writeLoop src n (i + 1)

/-- `consolewrite` of `n` characters; a negative `n` writes none. -/
def consolewrite (src : Nat → Option UInt8) (n : Nat) : OutM Nat := do
  acquire .cons
  let i ← writeLoop src n 0
  release .cons
  pure i

end Out

end Xv6.Kernel
