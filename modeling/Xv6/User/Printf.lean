import Mathlib.Data.List.Basic
/-!
# `printf`

`user/printf.c`.  A C string is the list of the bytes before its NUL, and what is
printed is the list of the bytes given to `putc`.  The arguments are the words that
`va_arg` finds one after the other, whatever the caller passed.
-/

namespace Xv6.User.Printf

def digits : List UInt8 := [48, 49, 50, 51, 52, 53, 54, 55, 56, 57, 65, 66, 67, 68, 69, 70]

def digit (i : Nat) : UInt8 := digits.getD i 0

/-- The first loop of `printint`: the digits are stored in `buf` from the lowest on.
`none` is a store past the end of `buf`, of which `room` elements are left. -/
def digitLoop (base : UInt32) : Nat → UInt32 → List UInt8 → Option (Nat × List UInt8)
  | 0, _, _ => none
  | room + 1, x, buf =>
    let buf := buf ++ [digit (x % base).toNat]
    if x / base ≠ 0 then digitLoop base room (x / base) buf else some (room, buf)

def printint (xx : Int32) (base : UInt32) (sgn : Bool) : Option (List UInt8) :=
  let neg := sgn = true ∧ xx < 0
  let x := if neg then (-xx).toUInt32 else xx.toUInt32
  match digitLoop base 16 x [] with
  | none => none
  | some (room, buf) =>
    if neg then
      if room = 0 then none else some (buf ++ ['-'.toUInt8]).reverse
    else some buf.reverse

/-- The loop of `printptr`. -/
def pointerLoop : Nat → UInt64 → List UInt8
  | 0, _ => []
  | i + 1, x => digit (x >>> 60).toNat :: pointerLoop i (x <<< 4)

def printptr (x : UInt64) : List UInt8 := '0'.toUInt8 :: 'x'.toUInt8 :: pointerLoop 16 x

def null : List UInt8 := [40, 110, 117, 108, 108, 41]

/-- What `vprintf` does with the character `c` after a `%`: what it prints, and how
many arguments it takes.  `a` is the next argument, and `str` finds strings. -/
def convert (str : UInt64 → List UInt8) (c : UInt8) (a : UInt64) : Option (List UInt8 × Nat) :=
  if c = 'd'.toUInt8 then (printint a.toUInt32.toInt32 10 true).map (·, 1)
  else if c = 'l'.toUInt8 then (printint a.toUInt32.toInt32 10 false).map (·, 1)
  else if c = 'x'.toUInt8 then (printint a.toUInt32.toInt32 16 false).map (·, 1)
  else if c = 'p'.toUInt8 then some (printptr a, 1)
  else if c = 's'.toUInt8 then some (if a = 0 then null else str a, 1)
  else if c = 'c'.toUInt8 then some ([a.toUInt8], 1)
  else if c = '%'.toUInt8 then some ([c], 0)
  else some (['%'.toUInt8, c], 0)

/-- The loop of `vprintf`.  `state` tells whether a `%` came just before, and `ap` is
the number of arguments taken. -/
def vprintfLoop (str : UInt64 → List UInt8) (args : Nat → UInt64) :
    List UInt8 → Bool → Nat → Option (List UInt8)
  | [], _, _ => some []
  | c :: fmt, false, ap =>
    if c = '%'.toUInt8 then vprintfLoop str args fmt true ap
    else (vprintfLoop str args fmt false ap).map (c :: ·)
  | c :: fmt, true, ap =>
    match convert str c (args ap) with
    | none => none
    | some (out, used) => (vprintfLoop str args fmt false (ap + used)).map (out ++ ·)

def vprintf (str : UInt64 → List UInt8) (fmt : List UInt8) (args : Nat → UInt64) :
    Option (List UInt8) :=
  vprintfLoop str args fmt false 0

end Xv6.User.Printf
