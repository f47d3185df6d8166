import Xv6.Kernel.Super
import Xv6.Lib.Runs
import Mathlib.Data.Fintype.Card
/-!
# Processes that share the buffer cache

A process that calls `bread` takes its reference first and may then sleep until
the buffer's lock is free, so the machine keeps, for each slot of the process
table, the buffer that process waits for.  The process whose `end_op` finds no
other operation outstanding runs `commit` without any lock: its code is a list
of instructions, and other processes run between any two of them.
-/

namespace Xv6.Kernel

open Xv6.Lib Function

/-! ## The code of `commit` -/

/-- An instruction on the buffers of a round: `false` is the one of the log, `true` the
one of the block's home. -/
inductive Instr where
  /-- `bread`, up to the reference. -/
  | bget (r : Bool) (b : Nat)
  /-- The rest of `bread`. -/
  | lock (r : Bool)
  /-- `memmove` from the other buffer. -/
  | copy (r : Bool)
  /-- The assignments of `write_head`. -/
  | head (r : Bool)
  | bwrite (r : Bool)
  | bunpin (r : Bool)
  | brelse (r : Bool)
  /-- `log.lh.n = 0`. -/
  | clear
  deriving DecidableEq

abbrev Regs : Type := Bool → Option BufId

namespace Instr

def withReg (reg : Regs) (r : Bool) (f : BufId → BlkM Unit) : BlkM Regs := do
  match reg r with
  | none => panic .kerneltrap
  | some i =>
    f i
    pure reg

def run (reg : Regs) : Instr → BlkM Regs
  | bget r b => do
    let l ← getLog
    let i ← bgetRef l.dev b
    pure (update reg r (some i))
  | lock r => withReg reg r fun i => do
    acquiresleep i
    bfill i
  | copy r => withReg reg r fun i => do
    match reg !r with
    | none => panic .kerneltrap
    | some j =>
      let d ← bdata j
      setData i d
  | head r => withReg reg r fun i => do
    let l ← getLog
    let d ← bdata i
    setData i (headStore l.lh d)
  | bwrite r => withReg reg r Kernel.bwrite
  | bunpin r => withReg reg r Kernel.bunpin
  | brelse r => withReg reg r Kernel.brelse
  | clear => do
    clearHead
    pure reg

/-- The buffer that the process waits for after the instruction. -/
def waits (reg : Regs) (i : Option BufId) : Instr → Option BufId
  | bget r _ => reg r
  | lock _ => none
  | _ => i

end Instr

/-- One round of `write_log`. -/
def copyText (start tail b : Nat) : List Instr :=
  [.bget false (start + tail + 1), .lock false, .bget true b, .lock true, .copy false,
    .bwrite false, .brelse true, .brelse false]

/-- One round of `install_trans`. -/
def installText (start tail b : Nat) : List Instr :=
  [.bget false (start + tail + 1), .lock false, .bget true b, .lock true, .copy true,
    .bwrite true, .bunpin true, .brelse false, .brelse true]

def headText (start : Nat) : List Instr :=
  [.bget false start, .lock false, .head false, .bwrite false, .brelse false]

/-- The rounds for the blocks of `log.lh` from number `tail` on. -/
def roundsText (round : Nat → Nat → List Instr) : Nat → List Nat → List Instr
  | _, [] => []
  | tail, b :: rest => round tail b ++ roundsText round (tail + 1) rest

def commitText (l : Log) : List Instr :=
  if 0 < l.lh.length then
    roundsText (copyText l.start) 0 l.lh ++ (headText l.start ++
      (roundsText (installText l.start) 0 l.lh ++ .clear :: headText l.start))
  else
    []

/-! ## The machine -/

/-- What process `proc` has left of `commit`. -/
structure Work where
  proc : ProcId
  text : List Instr
  reg : Regs

structure Machine where
  blk : Blk
  wait : ProcId → Option BufId
  work : Option Work

inductive Act where
  | bget (b : Nat)
  | bread
  | brelse (i : BufId)
  | store (i : BufId) (d : Block)
  | logWrite (i : BufId)
  | beginOp
  | endOp
  | commit

namespace Machine

def run {α : Type} (m : Machine) (p : ProcId) (f : BlkM α) : Option (α × Machine) :=
  match f { m.blk with pid := p.val } with
  | .ok (a, t) => some (a, { m with blk := t })
  | .error _ => none

def setWait (m : Machine) (p : ProcId) (w : Option BufId) : Machine :=
  { m with wait := update m.wait p w }

/-- The first critical section of `end_op`. -/
def endOp (m : Machine) (p : ProcId) : Option Machine :=
  match m.blk.log.endPass with
  | .error _ => none
  | .ok (l, false) => some { m with blk := m.blk.withLog l }
  | .ok (l, true) =>
    some { m with blk := m.blk.withLog l, work := some ⟨p, commitText l, fun _ => none⟩ }

/-- A step of a process that does not commit. -/
def act (m : Machine) (p : ProcId) (a : Act) : Option Machine :=
  match m.wait p, a with
  | some i, .bread =>
    (m.run p do acquiresleep i; bfill i).map fun x => x.2.setWait p none
  | none, .bget b => (m.run p (bgetRef m.blk.log.dev b)).map fun x => x.2.setWait p (some x.1)
  | none, .brelse i => (m.run p (brelse i)).map Prod.snd
  | none, .store i d =>
    if (m.blk.buf i).lock = some p.val then (m.run p (setData i d)).map Prod.snd else none
  | none, .logWrite i =>
    if (m.blk.buf i).lock = some p.val then (m.run p (logWrite i)).map Prod.snd else none
  | none, .beginOp => (m.run p beginOp).map Prod.snd
  | none, .endOp => m.endOp p
  | _, _ => none

/-- The process at work goes on to `text` after the instruction `x`. -/
def advance (m : Machine) (w : Work) (x : Instr) (text : List Instr) (reg : Regs) : Machine :=
  { m with
    wait := update m.wait w.proc (x.waits reg (m.wait w.proc))
    work := some { w with text := text, reg := reg } }

/-- The next instruction of `commit`, or what follows it in `end_op`. -/
def commitStep (m : Machine) (w : Work) : Option Machine :=
  match w.text with
  | [] => some { m with blk := m.blk.withLog m.blk.log.committed, work := none }
  | x :: text => (m.run w.proc (x.run w.reg)).map fun y => y.2.advance w x text y.1

def step (m : Machine) (x : ProcId × Act) : Option Machine :=
  match m.work with
  | none => m.act x.1 x.2
  | some w =>
    if w.proc = x.1 then
      match x.2 with
      | .commit => m.commitStep w
      | _ => none
    else
      m.act x.1 x.2

/-- The machine after `fsinit` in the first process. -/
def boot (disk : Nat → Block) : Option Machine :=
  match fsinit ROOTDEV (powerOn 1 disk) with
  | .ok (_, t) => some ⟨t, fun _ => none, none⟩
  | .error _ => none

def Reachable (disk : Nat → Block) (m : Machine) : Prop :=
  ∃ m₀, boot disk = some m₀ ∧ Reaches step (fun _ _ => True) m₀ m

/-- The processes asleep in `bread` with a reference to buffer `i`. -/
def waiters (m : Machine) (i : BufId) : Nat :=
  (Finset.univ.filter fun p => m.wait p = some i).card

/-- The callers between `bread` and `brelse`: whoever holds the lock, and
those waiting for it. -/
def callers (m : Machine) (i : BufId) : Nat :=
  m.waiters i + if (m.blk.buf i).lock = none then 0 else 1

/-- Buffer `i` has one of the blocks `l`. -/
def Has (m : Machine) (i : BufId) (l : List Nat) : Prop :=
  (m.blk.buf i).dev = m.blk.log.dev ∧ (m.blk.buf i).blockno ∈ l

instance (m : Machine) (i : BufId) (l : List Nat) : Decidable (m.Has i l) :=
  inferInstanceAs (Decidable (_ ∧ _))

/-- The recorded blocks that `commit` has not unpinned. -/
def pinned (m : Machine) : List Nat :=
  match m.work with
  | none => m.blk.log.lh
  | some w => m.blk.log.lh.drop (m.blk.log.lh.length - w.text.count (.bunpin true))

/-- A commit is between its first `bunpin` and `log.lh.n = 0`. -/
def Installing (m : Machine) : Prop := m.pinned ≠ m.blk.log.lh

/-- The reference counts are right when the blocks `l` are pinned: one reference for each
caller, and one for a pinned block. -/
def Accounted (m : Machine) (l : List Nat) : Prop :=
  ∀ i, (m.blk.buf i).refcnt = m.callers i + if m.Has i l then 1 else 0

/-- `bget` recycles only buffers that nobody uses. -/
def RecyclesUnused (m : Machine) (l : List Nat) : Prop :=
  ∀ b i, m.blk.lookup m.blk.log.dev b = none → m.blk.victim = some i →
    m.callers i = 0 ∧ ¬m.Has i l

end Machine

end Xv6.Kernel
