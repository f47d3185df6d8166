import Xv6.Kernel.Param
import Mathlib.Logic.Function.Basic
/-!
# The disk driver

`virtio_disk.c` from `alloc_desc` on: the descriptors, the two rings the driver
shares with the device, and the functions that work on them while `vdisk_lock` is
held.  A request is identified with the buffer it is for.
-/

namespace Xv6.Kernel

open Xv6.Lib Function

def NUM : Nat := 8

def VRING_DESC_F_NEXT : UInt16 := 1
def VRING_DESC_F_WRITE : UInt16 := 2

/-- Where a descriptor points: to the header on the stack of the caller, to
`b->data`, or to `disk.info[i].status`. -/
inductive DmaAddr (B : Type) where
  | null
  | header (b : B) (write : Bool)
  | data (b : B)
  | status (i : Nat)

structure VRingDesc (B : Type) where
  addr : DmaAddr B
  len : Nat
  flags : UInt16
  next : Nat

structure DiskInfo (B : Type) where
  b : Option B
  status : UInt8

/-- `struct disk` without its lock.  `avail` is the array from `disk.avail[2]` on. -/
structure VDisk (B : Type) where
  desc : Nat → VRingDesc B
  avail : Nat → Nat
  availIdx : UInt16
  elems : Nat → Nat
  usedId : UInt16
  free : Nat → Bool
  usedIdx : UInt16
  info : Nat → DiskInfo B

/-- Why a driver thread stops. -/
inductive DiskPanic where
  /-- A descriptor that does not exist is freed. -/
  | intr1
  /-- A free descriptor is freed. -/
  | intr2
  | intrStatus
  /-- `disk.info[id].b` is null. -/
  | kerneltrap
  deriving DecidableEq, Repr

/-- The descriptors `idx[0]`, `idx[1]` and `idx[2]` of a request. -/
structure DescChain where
  i0 : Nat
  i1 : Nat
  i2 : Nat
  deriving DecidableEq, Repr

namespace VDisk

variable {B : Type}

/-- What `virtio_disk_init` leaves. -/
def initial : VDisk B where
  desc := fun _ => ⟨.null, 0, 0, 0⟩
  avail := fun _ => 0
  availIdx := 0
  elems := fun _ => 0
  usedId := 0
  free := fun i => decide (i < NUM)
  usedIdx := 0
  info := fun _ => ⟨none, 0⟩

def setFree (d : VDisk B) (i : Nat) (x : Bool) : VDisk B :=
  { d with free := update d.free i x }

def setDesc (d : VDisk B) (i : Nat) (x : VRingDesc B) : VDisk B :=
  { d with desc := update d.desc i x }

def setInfo (d : VDisk B) (i : Nat) (x : DiskInfo B) : VDisk B :=
  { d with info := update d.info i x }

/-- `alloc_desc`; `none` stands for `-1`. -/
def allocDesc (d : VDisk B) : Option Nat × VDisk B :=
  match (List.range NUM).find? d.free with
  | some i => (some i, d.setFree i false)
  | none => (none, d)

def freeDesc (d : VDisk B) (i : Nat) : Except DiskPanic (VDisk B) :=
  if NUM ≤ i then .error .intr1
  else if d.free i = true then .error .intr2
  else .ok ((d.setDesc i { d.desc i with addr := .null }).setFree i true)

/-- The loop of `free_chain`.  Each round frees a descriptor that was not free, so
there are at most `NUM` of them before one fails. -/
def freeChain : Nat → VDisk B → Nat → Except DiskPanic (VDisk B)
  | 0, d, _ => .ok d
  | fuel + 1, d, i =>
    match d.freeDesc i with
    | .error e => .error e
    | .ok d' =>
      if (d'.desc i).flags &&& VRING_DESC_F_NEXT ≠ 0 then freeChain fuel d' (d'.desc i).next
      else .ok d'

/-- Free the descriptors that were allocated before there were no more. -/
def freeDescs : VDisk B → List Nat → Except DiskPanic (VDisk B)
  | d, [] => .ok d
  | d, i :: rest =>
    match d.freeDesc i with
    | .error e => .error e
    | .ok d' => freeDescs d' rest

/-- `alloc3_desc`; `none` if there are not three free descriptors. -/
def alloc3Desc (d : VDisk B) : Except DiskPanic (Option DescChain × VDisk B) :=
  match d.allocDesc with
  | (none, d) => .ok (none, d)
  | (some i0, d) =>
    match d.allocDesc with
    | (none, d) => (d.freeDescs [i0]).map fun d => (none, d)
    | (some i1, d) =>
      match d.allocDesc with
      | (none, d) => (d.freeDescs [i0, i1]).map fun d => (none, d)
      | (some i2, d) => .ok (some ⟨i0, i1, i2⟩, d)

/-- Format the descriptors of a request. -/
def format (d : VDisk B) (b : B) (write : Bool) (ch : DescChain) : VDisk B :=
  let d := d.setDesc ch.i0 ⟨.header b write, 16, VRING_DESC_F_NEXT, ch.i1⟩
  let d := d.setDesc ch.i1
    ⟨.data b, BSIZE, (if write = true then 0 else VRING_DESC_F_WRITE) ||| VRING_DESC_F_NEXT, ch.i2⟩
  let d := d.setDesc ch.i2 ⟨.status ch.i0, 1, VRING_DESC_F_WRITE, 0⟩
  d.setInfo ch.i0 ⟨some b, 0⟩

/-- `disk.avail[2 + (disk.avail[1] % NUM)] = idx[0]`. -/
def setAvail (d : VDisk B) (i : Nat) : VDisk B :=
  { d with avail := update d.avail (d.availIdx.toNat % NUM) i }

/-- `disk.avail[1] = disk.avail[1] + 1`. -/
def publish (d : VDisk B) : VDisk B := { d with availIdx := d.availIdx + 1 }

/-- `disk.info[idx[0]].b = 0; free_chain(idx[0])`. -/
def finish (d : VDisk B) (i : Nat) : Except DiskPanic (VDisk B) :=
  (d.setInfo i { d.info i with b := none }).freeChain (NUM + 1) i

def hasUsed (d : VDisk B) : Bool := d.usedIdx.toNat % NUM ≠ d.usedId.toNat % NUM

/-- `disk.used->elems[disk.used_idx].id`. -/
def firstUsed (d : VDisk B) : Nat := d.elems d.usedIdx.toNat

/-- `disk.used_idx = (disk.used_idx + 1) % NUM`. -/
def nextUsed (d : VDisk B) : VDisk B := { d with usedIdx := (d.usedIdx + 1) % UInt16.ofNat NUM }

/-- The device posts a used entry for the chain that starts at `i`. -/
def post (d : VDisk B) (i : Nat) : VDisk B :=
  { d.setInfo i { d.info i with status := 0 } with
    elems := update d.elems (d.usedId.toNat % NUM) i
    usedId := d.usedId + 1 }

end VDisk

end Xv6.Kernel
