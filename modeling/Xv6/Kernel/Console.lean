import Xv6.Lib.Bytes
/-!
# Console input

The input side of `console.c`: the buffer `cons` without its lock, the handler
`consoleintr`, and what `consoleread` does between taking `cons.lock` and giving
it up.
-/

namespace Xv6.Kernel

open Xv6.Lib

def INPUT_BUF : Nat := 128

/-- `C(x)`: control-x. -/
def ctrl (x : Char) : UInt8 := UInt8.ofNat (x.toNat - '@'.toNat)

def newline : UInt8 := UInt8.ofNat '\n'.toNat

def carriageReturn : UInt8 := UInt8.ofNat '\r'.toNat

/-- What `consputc` is asked to print: a character, or that one was erased. -/
inductive Echo where
  | char (c : UInt8)
  | backspace

/-- The bytes `consputc` sends to the uart. -/
def consputc : Echo → List UInt8
  | .char c => [c]
  | .backspace => [8, 32, 8]

/-- `cons`, and what has been echoed. -/
structure Cons where
  buf : Bytes INPUT_BUF
  r : UInt32
  w : UInt32
  e : UInt32
  echo : List UInt8

namespace Cons

def initial : Cons where
  buf := Bytes.zero
  r := 0
  w := 0
  e := 0
  echo := []

/-- `cons.e--; consputc(BACKSPACE)`. -/
def erase (s : Cons) : Cons :=
  { s with e := s.e - 1, echo := s.echo ++ consputc .backspace }

/-- The last character of the line being edited. -/
def last (s : Cons) : UInt8 := s.buf.get ((s.e - 1).toNat % INPUT_BUF)

/-- The loop for control-U. -/
def killLine : Nat → Cons → Cons
  | 0, s => s
  | n + 1, s => if s.e ≠ s.w ∧ s.last ≠ newline then killLine n s.erase else s

/-- `consputc(c); cons.buf[cons.e++ % INPUT_BUF] = c`. -/
def put (s : Cons) (c : UInt8) : Cons :=
  { s with
    buf := s.buf.set (s.e.toNat % INPUT_BUF) c
    e := s.e + 1
    echo := s.echo ++ consputc (.char c) }

/-- `cons.w = cons.e` once a line is complete or the buffer is full. -/
def commit (s : Cons) (c : UInt8) : Cons :=
  if c = newline ∨ c = ctrl 'D' ∨ s.e = s.r + UInt32.ofNat INPUT_BUF then { s with w := s.e } else s

/-- The handler for one input character.  Control-P prints the process table. -/
def consoleintr (c : UInt8) (s : Cons) : Cons :=
  if c = ctrl 'P' then
    s
  else if c = ctrl 'U' then
    -- every round decrements `e`, which stops at `w` at the latest
    killLine (s.e - s.w).toNat s
  else if c = ctrl 'H' ∨ c = 0x7f then
    if s.e ≠ s.w then s.erase else s
  else if c ≠ 0 ∧ s.e - s.r < UInt32.ofNat INPUT_BUF then
    let c := if c = carriageReturn then newline else c
    (s.put c).commit c
  else
    s

/-- `cons.buf[cons.r % INPUT_BUF]`. -/
def first (s : Cons) : UInt8 := s.buf.get (s.r.toNat % INPUT_BUF)

def advance (s : Cons) : Cons := { s with r := s.r + 1 }

def retreat (s : Cons) : Cons := { s with r := s.r - 1 }

end Cons

/-- A call of `consoleread` in progress: its argument, what is left of it, and the
characters copied out so far.  An `n` that is not positive reads nothing. -/
structure ConsRead where
  target : Nat
  n : Nat
  got : List UInt8
  deriving DecidableEq, Repr

namespace ConsRead

def start (n : Nat) : ConsRead where
  target := n
  n := n
  got := []

/-- `dst++; --n` after a character has been copied. -/
def take (x : ConsRead) (n : Nat) (c : UInt8) : ConsRead :=
  { x with n := n, got := x.got ++ [c] }

end ConsRead

/-- What a call of `consoleread` comes to before it gives up `cons.lock`: it
returns, or it sleeps because there is no input. -/
inductive ConsNext where
  | done (x : ConsRead)
  | sleep (x : ConsRead)
  deriving DecidableEq, Repr

def ConsNext.call : ConsNext → ConsRead
  | .done x => x
  | .sleep x => x

/-- The loop of `consoleread`, from the point where it has `cons.lock`; `n` is
what is left to read. -/
def Cons.consoleread (x : ConsRead) : Nat → Cons → Cons × ConsNext
  | 0, s => (s, .done x)
  | n + 1, s =>
    if s.r = s.w then
      (s, .sleep x)
    else
      let c := s.first
      let t := s.advance
      if c = ctrl 'D' then
        if n + 1 < x.target then (t.retreat, .done x) else (t, .done x)
      else if c = newline then
        (t, .done (x.take n c))
      else
        t.consoleread (x.take n c) n

end Xv6.Kernel
