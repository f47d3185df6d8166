import Xv6.Kernel.Sysfile
/-!
# The parser of the shell

`user/sh.c` from `gettoken` on.  A pointer into the command line is its distance from
the start; the line ends with a NUL byte that is not part of `s`.
-/

namespace Xv6.User

open Xv6.Kernel

def MAXARGS : Nat := 10

/-- The bytes of a string literal. -/
def bytes (s : String) : List UInt8 := s.toList.map Char.toUInt8

def whitespace : List UInt8 := bytes " \t\r\n\x0b"
def symbols : List UInt8 := bytes "<|>&;()"

/-- A parsed command; `W` is what stands for a word. -/
inductive Cmd (W : Type) where
  | exec (argv : List W)
  | redir (cmd : Cmd W) (file : W) (mode : UInt32) (fd : Nat)
  | pipe (left right : Cmd W)
  | list (left right : Cmd W)
  | back (cmd : Cmd W)
  deriving DecidableEq, Repr

/-- The pointers to the start and the end of a word. -/
structure Span where
  q : Nat
  eq : Nat
  deriving DecidableEq, Repr

/-- What `gettoken` returns. -/
inductive TokCode where
  | eof
  | bar
  | lparen
  | rparen
  | semi
  | amp
  | lt
  | gt
  /-- `+`, for `>>`. -/
  | append
  /-- `a`, for a word. -/
  | word
  deriving DecidableEq, Repr

inductive ShPanic where
  | syntaxError
  | missingFile
  | parseblock
  | missingParen
  | tooManyArgs
  deriving DecidableEq, Repr

/-- A parser returns at a place in the line or panics; `unfinished` means that it took
more rounds than it was allowed. -/
inductive Parse (α : Type) where
  | ok (a : α) (ps : Nat)
  | panic (e : ShPanic)
  | unfinished
  deriving DecidableEq, Repr

def Parse.andThen {α β : Type} (r : Parse α) (f : α → Nat → Parse β) : Parse β :=
  match r with
  | .ok a ps => f a ps
  | .panic e => .panic e
  | .unfinished => .unfinished

/-- `*p`. -/
def charAt (s : List UInt8) (p : Nat) : UInt8 := s.getD p 0

/-- `while(s < es && test(*s)) s++`, where `es - s` is `n`. -/
def scan (test : UInt8 → Bool) (s : List UInt8) : Nat → Nat → Nat
  | 0, p => p
  | n + 1, p => if test (charAt s p) = true then scan test s n (p + 1) else p

def skipSpace (s : List UInt8) (p : Nat) : Nat :=
  scan (fun c => whitespace.contains c) s (s.length - p) p

def isWordChar (c : UInt8) : Bool := !whitespace.contains c && !symbols.contains c

/-- The tokens of one byte. -/
def single (c : UInt8) : Option TokCode :=
  if c = '|'.toUInt8 then some .bar
  else if c = '('.toUInt8 then some .lparen
  else if c = ')'.toUInt8 then some .rparen
  else if c = ';'.toUInt8 then some .semi
  else if c = '&'.toUInt8 then some .amp
  else if c = '<'.toUInt8 then some .lt
  else none

/-- The token at `q` and where it ends. -/
def token (s : List UInt8) (q : Nat) : TokCode × Nat :=
  if charAt s q = 0 then (.eof, q)
  else
    match single (charAt s q) with
    | some t => (t, q + 1)
    | none =>
      if charAt s q = '>'.toUInt8 then
        if charAt s (q + 1) = '>'.toUInt8 then (.append, q + 2) else (.gt, q + 1)
      else (.word, scan isWordChar s (s.length - q) q)

structure GotToken where
  ret : TokCode
  span : Span
  ps : Nat

def gettoken (s : List UInt8) (ps : Nat) : GotToken :=
  let q := skipSpace s ps
  let t := token s q
  ⟨t.1, ⟨q, t.2⟩, skipSpace s t.2⟩

/-- The answer, and the place with whitespace skipped. -/
def peek (s : List UInt8) (ps : Nat) (toks : List UInt8) : Bool × Nat :=
  let p := skipSpace s ps
  (charAt s p ≠ 0 && toks.contains (charAt s p), p)

/-- The loop over `&` in `parseline`. -/
def parseback (s : List UInt8) : Nat → Cmd Span → Nat → Parse (Cmd Span)
  | 0, _, _ => .unfinished
  | fuel + 1, cmd, ps =>
    let p := peek s ps (bytes "&")
    if p.1 = true then parseback s fuel (.back cmd) (gettoken s p.2).ps else .ok cmd p.2

/-- The redirection that `tok` stands for. -/
def redircmd (tok : TokCode) (cmd : Cmd Span) (file : Span) : Cmd Span :=
  match tok with
  | .lt => .redir cmd file O_RDONLY 0
  | .gt => .redir cmd file (O_WRONLY ||| O_CREATE ||| O_TRUNC) 1
  | .append => .redir cmd file (O_WRONLY ||| O_CREATE) 1
  | _ => cmd

def parseredirs (s : List UInt8) : Nat → Cmd Span → Nat → Parse (Cmd Span)
  | 0, _, _ => .unfinished
  | fuel + 1, cmd, ps =>
    let p := peek s ps (bytes "<>")
    if p.1 = true then
      let t := gettoken s p.2
      let f := gettoken s t.ps
      if f.ret ≠ .word then .panic .missingFile
      else parseredirs s fuel (redircmd t.ret cmd f.span) f.ps
    else .ok cmd p.2

/-- `cmd->argv[argc] = q`, where `cmd` is the command under the redirections. -/
def Cmd.addArg {W : Type} (w : W) : Cmd W → Cmd W
  | .exec argv => .exec (argv ++ [w])
  | .redir cmd file mode fd => .redir (cmd.addArg w) file mode fd
  | cmd => cmd

/-- The loop of `parseexec`. -/
def parseargs (s : List UInt8) : Nat → Cmd Span → Nat → Nat → Parse (Cmd Span)
  | 0, _, _, _ => .unfinished
  | fuel + 1, ret, argc, ps =>
    let p := peek s ps (bytes "|)&;")
    if p.1 = true then .ok ret p.2
    else
      let t := gettoken s p.2
      if t.ret = .eof then .ok ret t.ps
      else if t.ret ≠ .word then .panic .syntaxError
      else if argc + 1 ≥ MAXARGS then .panic .tooManyArgs
      else
        (parseredirs s fuel (ret.addArg t.span) t.ps).andThen fun ret ps =>
          parseargs s fuel ret (argc + 1) ps

mutual

def parseline (s : List UInt8) : Nat → Nat → Parse (Cmd Span)
  | 0, _ => .unfinished
  | fuel + 1, ps =>
    (parsepipe s fuel ps).andThen fun cmd ps =>
      (parseback s fuel cmd ps).andThen fun cmd ps =>
        let p := peek s ps (bytes ";")
        if p.1 = true then
          (parseline s fuel (gettoken s p.2).ps).andThen fun right ps => .ok (.list cmd right) ps
        else .ok cmd p.2

def parsepipe (s : List UInt8) : Nat → Nat → Parse (Cmd Span)
  | 0, _ => .unfinished
  | fuel + 1, ps =>
    (parseexec s fuel ps).andThen fun cmd ps =>
      let p := peek s ps (bytes "|")
      if p.1 = true then
        (parsepipe s fuel (gettoken s p.2).ps).andThen fun right ps => .ok (.pipe cmd right) ps
      else .ok cmd p.2

def parseblock (s : List UInt8) : Nat → Nat → Parse (Cmd Span)
  | 0, _ => .unfinished
  | fuel + 1, ps =>
    let p := peek s ps (bytes "(")
    if p.1 = false then .panic .parseblock
    else
      (parseline s fuel (gettoken s p.2).ps).andThen fun cmd ps =>
        let p := peek s ps (bytes ")")
        if p.1 = false then .panic .missingParen
        else parseredirs s fuel cmd (gettoken s p.2).ps

def parseexec (s : List UInt8) : Nat → Nat → Parse (Cmd Span)
  | 0, _ => .unfinished
  | fuel + 1, ps =>
    let p := peek s ps (bytes "(")
    if p.1 = true then parseblock s fuel p.2
    else
      (parseredirs s fuel (.exec []) p.2).andThen fun ret ps => parseargs s fuel ret 0 ps

end

/-- The line in memory after `nulterminate`. -/
def nulterminate (line : List UInt8) : Cmd Span → List UInt8
  | .exec argv => argv.foldl (fun line w => line.set w.eq 0) line
  | .redir cmd file _ _ => (nulterminate line cmd).set file.eq 0
  | .pipe left right => nulterminate (nulterminate line left) right
  | .list left right => nulterminate (nulterminate line left) right
  | .back cmd => nulterminate line cmd

/-- The command, and the line with its NUL bytes. -/
def parsecmd (s : List UInt8) (fuel : Nat) : Parse (Cmd Span × List UInt8) :=
  (parseline s fuel 0).andThen fun cmd ps =>
    let p := peek s ps (bytes "")
    if p.2 ≠ s.length then .panic .syntaxError
    else .ok (cmd, nulterminate (s ++ [0]) cmd) p.2

/-- A string in memory. -/
def cstring (line : List UInt8) (p : Nat) : List UInt8 := (line.drop p).takeWhile (· ≠ 0)

def Cmd.map {V W : Type} (f : V → W) : Cmd V → Cmd W
  | .exec argv => .exec (argv.map f)
  | .redir cmd file mode fd => .redir (cmd.map f) (f file) mode fd
  | .pipe left right => .pipe (left.map f) (right.map f)
  | .list left right => .list (left.map f) (right.map f)
  | .back cmd => .back (cmd.map f)

end Xv6.User
