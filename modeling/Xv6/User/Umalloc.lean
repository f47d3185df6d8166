import Xv6.Lib.Runs
import Mathlib.Algebra.Ring.Nat
/-!
# The user-level allocator

`user/umalloc.c`.  Addresses are byte addresses, and memory is seen through the
headers in it; `sbrk` is the kernel's, of which only the answers matter.
-/

namespace Xv6.User

open Xv6.Lib Function

/-- `sizeof(Header)`. -/
def HDR : Nat := 16

structure Header where
  ptr : Nat
  size : UInt32
  deriving DecidableEq

/-- The address of `base`, which is below everything `sbrk` returns. -/
structure Arena where
  base : Nat
  brk : Nat
  base_pos : 0 < base
  base_lt : base + HDR ≤ brk

/-- How `sbrk` answers: call number `i` fails, or skips `answer i` bytes above what
was returned before.  Altogether it returns at most `limit` headers. -/
structure Sbrk where
  answer : Nat → Option Nat
  limit : Nat

/-- The allocator's memory.  The last three fields are about `sbrk`: how often it was
called, the end of what it returned, and what it returned, as addresses and numbers
of headers. -/
structure Heap where
  mem : Nat → Header
  freep : Nat
  calls : Nat
  top : Nat
  got : List (Nat × Nat)

namespace Heap

def ptr (h : Heap) (a : Nat) : Nat := (h.mem a).ptr

def size (h : Heap) (a : Nat) : UInt32 := (h.mem a).size

/-- `a + a->s.size`. -/
def stop (h : Heap) (a : Nat) : Nat := a + HDR * (h.size a).toNat

def setPtr (h : Heap) (a p : Nat) : Heap :=
  { h with mem := update h.mem a { h.mem a with ptr := p } }

def setSize (h : Heap) (a : Nat) (n : UInt32) : Heap :=
  { h with mem := update h.mem a { h.mem a with size := n } }

/-- The number of headers that came from `sbrk`. -/
def units (h : Heap) : Nat := (h.got.map Prod.snd).sum

/-- `sbrk(nu * sizeof(Header))`; the address `none` stands for -1. -/
def sbrk (E : Sbrk) (h : Heap) (nu : UInt32) : Option (Option Nat × Heap) :=
  match E.answer h.calls with
  | none => some (none, { h with calls := h.calls + 1 })
  | some gap =>
    if h.units + nu.toNat ≤ E.limit then
      some (some (h.top + gap), { h with
          calls := h.calls + 1
          top := h.top + gap + HDR * nu.toNat
          got := (h.top + gap, nu.toNat) :: h.got })
    else
      some (none, { h with calls := h.calls + 1 })

/-! The product `nu * sizeof(Header)` is a `uint64`, and `sbrk` takes an `int`.  `sbrk` above is
asked for the number of headers; `sbrkInt` is asked for what is left of the product. -/

/-- `nu * sizeof(Header)`, narrowed. -/
def asked (nu : UInt32) : Int32 := Int32.ofNat (HDR * nu.toNat)

def PGROUNDUP (a : Nat) : Nat := (a + 4095) / 4096 * 4096

/-- A positive number is granted or refused as above; any other is not refused for lack of
memory.  `growproc` gives back the top `-n` bytes, or none if there are fewer, and the old
break is returned.  `none` when its page is not there, so that the store of the header kills
the process. -/
def sbrkInt (E : Sbrk) (h : Heap) (nu : UInt32) : Option (Option Nat × Heap) :=
  let n := (asked nu).toInt
  if 0 < n then
    h.sbrk E (UInt32.ofNat (n.toNat / HDR))
  else
    match E.answer h.calls with
    | none => some (none, { h with calls := h.calls + 1 })
    | some gap =>
      let brk := h.top + gap
      let top := if brk < n.natAbs then brk else brk - n.natAbs
      if brk < PGROUNDUP top then
        some (some brk, { h with calls := h.calls + 1, top := top })
      else
        none

/-- The search of `free`: the block after which `bp` belongs.  `none` means that it
took more than `fuel` rounds. -/
def search (h : Heap) (bp : Nat) : Nat → Nat → Option Nat
  | 0, _ => none
  | fuel + 1, p =>
    if bp > p ∧ bp < h.ptr p then some p
    else if p ≥ h.ptr p ∧ (bp > p ∨ bp < h.ptr p) then some p else search h bp fuel (h.ptr p)

/-- Join `bp` with the block at `p->s.ptr`, or link it to that block. -/
def joinNext (h : Heap) (bp p : Nat) : Heap :=
  if h.stop bp = h.ptr p then
    (h.setSize bp (h.size bp + h.size (h.ptr p))).setPtr bp (h.ptr (h.ptr p))
  else h.setPtr bp (h.ptr p)

/-- Join `p` with `bp`, or link it to `bp`. -/
def joinPrev (h : Heap) (bp p : Nat) : Heap :=
  if h.stop p = bp then (h.setSize p (h.size p + h.size bp)).setPtr p (h.ptr bp)
  else h.setPtr p bp

/-- `free((void*)(bp + 1))`. -/
def freeBlock (h : Heap) (fuel bp : Nat) : Option Heap :=
  (h.search bp fuel h.freep).map fun p => { (h.joinNext bp p).joinPrev bp p with freep := p }

def free (h : Heap) (fuel ap : Nat) : Option Heap := h.freeBlock fuel (ap - HDR)

/-- The header size of the block that `morecore(nu)` installs. -/
def installed (nu : UInt32) : UInt32 := if nu < 4096 then 4096 else nu

/-- `morecore`, with the call `ask` of `sbrk`; the second component is 0 if it failed. -/
def morecore (ask : Heap → UInt32 → Option (Option Nat × Heap)) (h : Heap) (fuel : Nat)
    (nu : UInt32) : Option (Heap × Nat) :=
  match ask h (installed nu) with
  | none => none
  | some (none, h) => some (h, 0)
  | some (some hp, h) => ((h.setSize hp (installed nu)).freeBlock fuel hp).map fun h => (h, h.freep)

/-- Take `nunits` from the block at `p`, all of it or its tail. -/
def carve (h : Heap) (nunits : UInt32) (prevp p : Nat) : Heap × Nat :=
  if h.size p = nunits then ({ h.setPtr prevp (h.ptr p) with freep := prevp }, p + HDR)
  else
    let h := h.setSize p (h.size p - nunits)
    let p := h.stop p
    ({ h.setSize p nunits with freep := prevp }, p + HDR)

/-- The loop of `malloc`. -/
def mallocLoop (ask : Heap → UInt32 → Option (Option Nat × Heap)) (nunits : UInt32) :
    Nat → Heap → Nat → Nat → Option (Heap × Nat)
  | 0, _, _, _ => none
  | fuel + 1, h, prevp, p =>
    if h.size p ≥ nunits then
      some (h.carve nunits prevp p)
    else if p = h.freep then
      match h.morecore ask fuel nunits with
      | none => none
      | some (h, 0) => some (h, 0)
      | some (h, p + 1) => mallocLoop ask nunits fuel h (p + 1) (h.ptr (p + 1))
    else
      mallocLoop ask nunits fuel h p (h.ptr p)

end Heap

def nunits (nbytes : UInt32) : UInt32 := UInt32.ofNat ((nbytes.toNat + HDR - 1) / HDR + 1)

namespace Heap

/-- The list is made of `base` when there is none yet. -/
def ready (A : Arena) (h : Heap) : Heap :=
  if h.freep = 0 then { (h.setPtr A.base A.base).setSize A.base 0 with freep := A.base } else h

/-- `malloc(nbytes)`; 0 if there is no memory. -/
def malloc (A : Arena) (ask : Heap → UInt32 → Option (Option Nat × Heap)) (h : Heap) (fuel : Nat)
    (nbytes : UInt32) : Option (Heap × Nat) :=
  let h := h.ready A
  h.mallocLoop ask (nunits nbytes) fuel h.freep (h.ptr h.freep)

end Heap

/-! ## A program that uses it -/

/-- The allocator, with the pointers the program has and how many bytes it asked for
at each. -/
structure Program where
  heap : Heap
  live : List (Nat × UInt32)

inductive MemAct where
  | malloc (fuel : Nat) (nbytes : UInt32)
  | free (fuel ap : Nat)
  /-- The program writes to a block it has; what looks like a header at `a` changes. -/
  | write (ap a : Nat) (x : Header)

namespace Program

def init (A : Arena) (mem : Nat → Header) : Program := ⟨⟨mem, 0, 0, A.brk, []⟩, []⟩

/-- The size of a request, in bytes and with its header, is a positive `int`. -/
def fits (nbytes : UInt32) : Bool := HDR * (nunits nbytes).toNat < 2 ^ 31

/-- A call is a step if it ends within `fuel` rounds of its loops. -/
def step (A : Arena) (E : Sbrk) (s : Program) : MemAct → Option Program
  | .malloc fuel nbytes =>
    if fits nbytes = true then
      (s.heap.malloc A (Heap.sbrk E) fuel nbytes).map fun (h, ap) =>
        ⟨h, if ap = 0 then s.live else (ap, nbytes) :: s.live⟩
    else
      none
  | .free fuel ap =>
    if ap ∈ s.live.map Prod.fst then
      (s.heap.free fuel ap).map fun h => ⟨h, s.live.eraseP fun e => e.1 = ap⟩
    else
      none
  | .write ap a x =>
    if ap ∈ s.live.map Prod.fst ∧ ap - HDR < a ∧ a < s.heap.stop (ap - HDR) then
      some { s with heap := { s.heap with mem := update s.heap.mem a x } }
    else
      none

end Program

end Xv6.User
