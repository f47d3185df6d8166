import Xv6.Kernel.Console
import Xv6.Lib.Runs
import Mathlib.Logic.Function.Basic
/-!
# The line discipline of the console

What the console is for, in terms of a queue and a line that is being edited, and
processes that read from a console while characters arrive.
-/

namespace Xv6.Kernel

open Xv6.Lib Function

/-! ## The line discipline -/

/-- What the console is for: a queue of characters for readers, and the line that
is being edited.  `committed` is everything that was ever put into the queue. -/
structure Discipline where
  queue : List UInt8
  line : List UInt8
  committed : List UInt8

namespace Discipline

def initial : Discipline where
  queue := []
  line := []
  committed := []

/-- A character is appended to the line, which goes to the queue if that completes
it. -/
def store (d : Discipline) (c : UInt8) : Discipline :=
  if c = newline ∨ c = ctrl 'D' ∨ d.queue.length + d.line.length + 1 = INPUT_BUF then
    { queue := d.queue ++ (d.line ++ [c])
      line := []
      committed := d.committed ++ (d.line ++ [c]) }
  else
    { d with line := d.line ++ [c] }

def input (c : UInt8) (d : Discipline) : Discipline :=
  if c = ctrl 'P' then d
  else if c = ctrl 'U' then { d with line := [] }
  else if c = ctrl 'H' ∨ c = 0x7f then { d with line := d.line.dropLast }
  else if c = 0 ∨ d.queue.length + d.line.length = INPUT_BUF then d
  else d.store (if c = carriageReturn then newline else c)

/-- A reader takes characters from the front of the queue: at most `n`, up to the
first newline, and up to a control-D, which stays in the queue unless it is the
first character of the call. -/
def read (x : ConsRead) : Nat → Discipline → Discipline × ConsNext
  | 0, d => (d, .done x)
  | n + 1, d => match d.queue with
    | [] => (d, .sleep x)
    | c :: rest =>
      if c = ctrl 'D' then
        if x.got = [] then ({ d with queue := rest }, .done x) else (d, .done x)
      else if c = newline then
        ({ d with queue := rest }, .done (x.take n c))
      else
        Discipline.read (x.take n c) n { d with queue := rest }

end Discipline

/-! ## Users of a console -/

/-- A console, as the code has it or as it is meant to be. -/
structure ConsDevice (D : Type) where
  start : D
  intr : UInt8 → D → D
  read : ConsRead → Nat → D → D × ConsNext

def console : ConsDevice Cons where
  start := Cons.initial
  intr := Cons.consoleintr
  read := Cons.consoleread

def discipline : ConsDevice Discipline where
  start := Discipline.initial
  intr := Discipline.input
  read := Discipline.read

/-- A console with readers `ι`: the calls in progress, those that have returned, and
the characters copied out by them, in this order. -/
structure Tty (ι D : Type) where
  dev : D
  call : ι → Option ConsRead
  returned : List ConsRead
  delivered : List UInt8

inductive TtyAct (ι : Type) where
  | intr (c : UInt8)
  | read (p : ι) (n : Nat)
  /-- A process in `consoleread` gets `cons.lock`, at first or after it slept. -/
  | run (p : ι)

namespace Tty

variable {ι D : Type} [DecidableEq ι]

def init (dev : ConsDevice D) : Tty ι D where
  dev := dev.start
  call := fun _ => none
  returned := []
  delivered := []

def finish (s : Tty ι D) (p : ι) : ConsNext → Tty ι D
  | .done x => { s with call := update s.call p none, returned := s.returned ++ [x] }
  | .sleep x => { s with call := update s.call p (some x) }

def runRead (dev : ConsDevice D) (s : Tty ι D) (p : ι) (x : ConsRead) : Tty ι D :=
  let r := dev.read x x.n s.dev
  { s with
    dev := r.1
    delivered := s.delivered ++ r.2.call.got.drop x.got.length }.finish p r.2

def step (dev : ConsDevice D) (s : Tty ι D) : TtyAct ι → Option (Tty ι D)
  | .intr c => some { s with dev := dev.intr c s.dev }
  | .read p n => match s.call p with
    | none => some { s with call := update s.call p (some (ConsRead.start n)) }
    | some _ => none
  | .run p => match s.call p with
    | none => none
    | some x => some (s.runRead dev p x)

end Tty

end Xv6.Kernel
