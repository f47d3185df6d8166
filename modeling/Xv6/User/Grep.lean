import Xv6.User.Ulib
import Mathlib.Data.List.Basic
import Mathlib.Algebra.Ring.Nat
/-!
# `grep`

`grep.c`.  For the matcher a C string is the list of the bytes before its NUL; the loop
that reads the file works on memory.
-/

namespace Xv6.User.Grep

def caret : UInt8 := 94

def star : UInt8 := 42

def dollar : UInt8 := 36

def dot : UInt8 := 46

mutual

/-- Search for `re` at the beginning of `text`. -/
def matchhere (re text : List UInt8) : Bool :=
  match re with
  | [] => true
  | c :: rest =>
    if rest.head? = some star then
      matchstar c rest.tail text
    else if c = dollar ∧ rest = [] then
      text.isEmpty
    else
      match text with
      | [] => false
      | t :: text => if c = dot ∨ c = t then matchhere rest text else false
termination_by (re.length, text.length, 0)
decreasing_by
  · simp only [List.length_cons, List.length_tail]
    exact Prod.Lex.left _ _ (by omega)
  · exact Prod.Lex.left _ _ (Nat.lt_succ_self _)

/-- Search for `c*re` at the beginning of `text`. -/
def matchstar (c : UInt8) (re text : List UInt8) : Bool :=
  if matchhere re text = true then
    true
  else
    match text with
    | [] => false
    | t :: text => if t = c ∨ c = dot then matchstar c re text else false
termination_by (re.length, text.length, 1)
decreasing_by
  · exact Prod.Lex.right _ (Prod.Lex.right _ Nat.zero_lt_one)
  · exact Prod.Lex.right _ (Prod.Lex.left _ _ (Nat.lt_succ_self _))

end

/-- The loop of `match`. -/
def matchLoop (re : List UInt8) : List UInt8 → Bool
  | [] => matchhere re []
  | t :: text => if matchhere re (t :: text) = true then true else matchLoop re text

/-- `match`. -/
def matchText (re text : List UInt8) : Bool :=
  if re.head? = some caret then matchhere re.tail text else matchLoop re text

/-! ## The loop -/

def newline : UInt8 := 10

/-- `sizeof(buf)`. -/
def BUFSIZE : Nat := 1024

/-- `buf`, which is an array and not at the null pointer. -/
structure Buffer where
  addr : UInt64
  pos : 0 < addr.toNat
  fits : addr.toNat + BUFSIZE ≤ 2 ^ 64

/-- The memory of the process, what is left of its input, how often it called `read`, and
what it has written. -/
structure Run where
  mem : Mem
  input : List UInt8
  reads : Nat
  out : List UInt8

def bytesAt (m : Mem) : UInt64 → Nat → List UInt8
  | _, 0 => []
  | p, n + 1 => m p :: bytesAt m (p + 1) n

def putBytes (m : Mem) : UInt64 → List UInt8 → Mem
  | _, [] => m
  | p, x :: xs => putBytes (Function.update m p x) (p + 1) xs

namespace Run

def store (s : Run) (p : UInt64) (x : UInt8) : Run := { s with mem := Function.update s.mem p x }

/-- `read(fd, p, n)`.  It returns at least one byte, if `n` is not 0 and the input not at
its end, and otherwise as many as it likes, which `split` says. -/
def read (split : Nat → Nat) (s : Run) (p : UInt64) (n : Nat) : Nat × Run :=
  let k := min (max 1 (split s.reads)) (min n s.input.length)
  (k, { s with
    mem := putBytes s.mem p (s.input.take k)
    input := s.input.drop k
    reads := s.reads + 1 })

/-- `write(1, p, n)`. -/
def write (s : Run) (p : UInt64) (n : Nat) : Run := { s with out := s.out ++ bytesAt s.mem p n }

end Run

/-- The loop over the lines in `buf`; with the final value of `p`. -/
def scanLoop (pattern : List UInt8) : Nat → UInt64 → Run → Option (UInt64 × Run)
  | 0, _, _ => none
  | fuel + 1, p, s => (strchr s.mem newline fuel p).bind fun q =>
      if q = 0 then some (p, s)
      else
        let s := s.store q 0
        (stringAt s.mem fuel p).bind fun text =>
          if matchText pattern text = true then
            scanLoop pattern fuel (q + 1) ((s.store q newline).write p (q + 1 - p).toNat)
          else scanLoop pattern fuel (q + 1) s

/-- The loop of `grep`, if it ends within `fuel` rounds. -/
def grepLoop (pattern : List UInt8) (split : Nat → Nat) (buf : Buffer) :
    Nat → Nat → Run → Option Run
  | 0, _, _ => none
  | fuel + 1, m, s =>
    let (n, s) := s.read split (byteAt buf.addr m) (BUFSIZE - m - 1)
    if n > 0 then
      let m := m + n
      let s := s.store (byteAt buf.addr m) 0
      (scanLoop pattern fuel buf.addr s).bind fun (p, s) =>
        if m > 0 then
          let m := m - (p - buf.addr).toNat
          grepLoop pattern split buf fuel m
            { s with mem := (memmove buf.addr p (Int32.ofNat m) s.mem).2 }
        else grepLoop pattern split buf fuel m s
    else some s

/-- `grep(pattern, fd)`, where `fd` yields `input`. -/
def grep (pattern : List UInt8) (split : Nat → Nat) (buf : Buffer) (fuel : Nat) (mem : Mem)
    (input : List UInt8) : Option Run :=
  grepLoop pattern split buf fuel 0 ⟨mem, input, 0, []⟩

end Xv6.User.Grep
