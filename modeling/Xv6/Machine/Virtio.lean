import Xv6.Kernel.Virtio
import Xv6.Lib.Runs
/-!
# Users of the disk, and the disk

Any number of threads call `virtio_disk_rw`, each for a buffer it has locked, while
`virtio_disk_intr` runs on any cpu and the device works on the requests it has been
given.  What a driver thread does while it has `vdisk_lock` is divided where the
device can tell the difference.  A thread that sleeps may take the lock again at any
time, whether it was woken up or not.
-/

namespace Xv6.Kernel

open Xv6.Lib Function

inductive DiskPc where
  | idle
  /-- Before `acquire`, at first or after it slept for descriptors. -/
  | enter (write : Bool)
  /-- With the lock, before `alloc3_desc`. -/
  | alloc (write : Bool)
  /-- Before `disk.avail[2 + (disk.avail[1] % NUM)] = idx[0]`. -/
  | ring (ch : DescChain)
  /-- Before `disk.avail[1] = disk.avail[1] + 1`. -/
  | bump (ch : DescChain)
  /-- At the test of `b->disk`. -/
  | check (ch : DescChain)
  | asleep (ch : DescChain)
  deriving DecidableEq

/-- The descriptors of the request. -/
def DiskPc.chain : DiskPc → Option DescChain
  | .ring ch | .bump ch | .check ch | .asleep ch => some ch
  | .idle | .enter _ | .alloc _ => none

inductive DiskHolder (B : Type) where
  | rw (b : B)
  | intr
  deriving DecidableEq

/-- The driver and the device.  `busy` is `b->disk`.  `seen` is how far the device has
looked in the avail ring, and `inflight` are the chains it works on.  The last three
fields are bookkeeping: the used entries posted, those handled, and whether the
device has completed the request a thread is in. -/
structure DiskSys (B : Type) where
  disk : VDisk B
  busy : B → Bool
  lock : Option (DiskHolder B)
  pc : B → DiskPc
  seen : UInt16
  inflight : List Nat
  panic : Option DiskPanic
  posted : List Nat
  handled : List Nat
  done : B → Bool

inductive DiskAct (B : Type) where
  | rw (b : B) (write : Bool)
  | run (b : B)
  /-- `virtio_disk_intr` takes the lock. -/
  | intr
  /-- A round of the loop of `virtio_disk_intr`, or its end. -/
  | handle
  /-- The device takes the next avail entry. -/
  | take
  | complete (i : Nat)

namespace DiskSys

variable {B : Type} [DecidableEq B]

def init : DiskSys B where
  disk := VDisk.initial
  busy := fun _ => false
  lock := none
  pc := fun _ => .idle
  seen := 0
  inflight := []
  panic := none
  posted := []
  handled := []
  done := fun _ => false

def setPc (s : DiskSys B) (b : B) (pc : DiskPc) : DiskSys B :=
  { s with pc := update s.pc b pc }

def withLock (s : DiskSys B) (l : Option (DiskHolder B)) : DiskSys B := { s with lock := l }

def withDisk (s : DiskSys B) (d : VDisk B) : DiskSys B := { s with disk := d }

def stop (s : DiskSys B) (e : DiskPanic) : DiskSys B := { s with panic := some e }

/-- The descriptors are allocated and formatted, and `b->disk` is set. -/
def begin (s : DiskSys B) (b : B) (write : Bool) (ch : DescChain) (d : VDisk B) : DiskSys B :=
  { s with
    disk := d.format b write ch
    busy := update s.busy b true
    done := update s.done b false }.setPc b (.ring ch)

def allocStep (s : DiskSys B) (b : B) (write : Bool) : DiskSys B :=
  match s.disk.alloc3Desc with
  | .error e => s.stop e
  | .ok (none, d) => ((s.withDisk d).withLock none).setPc b (.enter write)
  | .ok (some ch, d) => s.begin b write ch d

/-- `b->disk` is tested; if the request is finished, its descriptors are freed. -/
def checkStep (s : DiskSys B) (b : B) (ch : DescChain) : DiskSys B :=
  if s.busy b = true then (s.withLock none).setPc b (.asleep ch)
  else
    match s.disk.finish ch.i0 with
    | .error e => s.stop e
    | .ok d => ((s.withDisk d).withLock none).setPc b .idle

def runStep (s : DiskSys B) (b : B) : DiskPc → Option (DiskSys B)
  | .idle => none
  | .enter write =>
    if s.lock = none then some ((s.withLock (some (.rw b))).setPc b (.alloc write)) else none
  | .alloc write => some (s.allocStep b write)
  | .ring ch => some ((s.withDisk (s.disk.setAvail ch.i0)).setPc b (.bump ch))
  | .bump ch => some ((s.withDisk s.disk.publish).setPc b (.check ch))
  | .check ch => some (s.checkStep b ch)
  | .asleep ch =>
    if s.lock = none then some ((s.withLock (some (.rw b))).setPc b (.check ch)) else none

/-- One used entry is handled: `disk.info[id].b->disk = 0`. -/
def handleOne (s : DiskSys B) (i : Nat) : DiskSys B :=
  if (s.disk.info i).status ≠ 0 then s.stop .intrStatus
  else
    match (s.disk.info i).b with
    | none => s.stop .kerneltrap
    | some b =>
      { s with
        disk := s.disk.nextUsed
        busy := update s.busy b false
        handled := s.handled ++ [i] }

def completed (s : DiskSys B) (i : Nat) : DiskSys B :=
  { s with
    disk := s.disk.post i
    inflight := s.inflight.erase i
    posted := s.posted ++ [i]
    done := fun b => if (s.pc b).chain.map DescChain.i0 = some i then true else s.done b }

def step (s : DiskSys B) (a : DiskAct B) : Option (DiskSys B) :=
  if s.panic = none then
    match a with
    | .rw b write => if s.pc b = .idle then some (s.setPc b (.enter write)) else none
    | .run b => s.runStep b (s.pc b)
    | .intr => if s.lock = none then some (s.withLock (some .intr)) else none
    | .handle =>
      if s.lock = some .intr then
        if s.disk.hasUsed = true then some (s.handleOne s.disk.firstUsed)
        else some (s.withLock none)
      else none
    | .take =>
      if s.seen ≠ s.disk.availIdx then
        some { s with
          inflight := s.inflight ++ [s.disk.avail (s.seen.toNat % NUM)]
          seen := s.seen + 1 }
      else none
    | .complete i => if i ∈ s.inflight then some (s.completed i) else none
  else none

end DiskSys

end Xv6.Kernel
