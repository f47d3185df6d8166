import Xv6.Kernel.Kalloc
/-!
# Page tables

The macros of `riscv.h` and `vm.c`.  A pointer to a page table is the address of
its page, a pointer to an entry is that address and the index.
-/

namespace Xv6.Kernel

open Xv6.Lib

def PTE_V : UInt64 := 1
def PTE_R : UInt64 := 2
def PTE_W : UInt64 := 4
def PTE_X : UInt64 := 8
def PTE_U : UInt64 := 16

def PA2PTE (pa : Nat) : UInt64 := (UInt64.ofNat pa >>> 12) <<< 10

def PTE2PA (pte : UInt64) : Nat := ((pte >>> 10) <<< 12).toNat

def PTE_FLAGS (pte : UInt64) : UInt64 := pte &&& 0x3FF

/-- The index of `va` at a level. -/
def PX (level va : Nat) : Nat := (va >>> (12 + 9 * level)) &&& 0x1FF

def TRAMPOLINE : Nat := MAXVA - PGSIZE
def TRAPFRAME : Nat := TRAMPOLINE - PGSIZE

namespace Vm

/-! ## Walking and mapping -/

def getPte (e : Nat × Nat) : VmM UInt64 := Prog.gets fun s => s.word e.1 e.2

def setPte (e : Nat × Nat) (pte : UInt64) : VmM Unit := Prog.modify fun s => s.setWord e.1 e.2 pte

/-- The loop of `walk`, from a level down. -/
def walkLevel (va : Nat) (alloc : Bool) : Nat → Nat → VmM (Option (Nat × Nat))
  | 0, pagetable => pure (some (pagetable, PX 0 va))
  | level + 1, pagetable => do
      let pte ← getPte (pagetable, PX (level + 1) va)
      if pte &&& PTE_V ≠ 0 then
        walkLevel va alloc level (PTE2PA pte)
      else if alloc = false then
        pure none
      else do
        let fresh ← kalloc
        if fresh = 0 then
          pure none
        else do
          memset fresh 0
          setPte (pagetable, PX (level + 1) va) (PA2PTE fresh ||| PTE_V)
          walkLevel va alloc level fresh

def walk (pagetable va : Nat) (alloc : Bool) : VmM (Option (Nat × Nat)) :=
  if MAXVA ≤ va then Prog.stop .walk else walkLevel va alloc 2 pagetable

def walkaddr (pagetable va : Nat) : VmM Nat :=
  if MAXVA ≤ va then
    pure 0
  else do
    let r ← walk pagetable va false
    match r with
    | none => pure 0
    | some e =>
      let pte ← getPte e
      if pte &&& PTE_V = 0 then pure 0
      else if pte &&& PTE_U = 0 then pure 0
      else pure (PTE2PA pte)

/-- The loop of `mappages`; the result is false for `-1`.  `walk` panics once
the loop leaves the address space. -/
def mappagesLoop (pagetable last : Nat) (perm : UInt64) : Nat → Nat → Nat → VmM Bool
  | 0, _, _ => Prog.stop .walk
  | fuel + 1, a, pa => do
      let r ← walk pagetable a true
      match r with
      | none => pure false
      | some e =>
        let pte ← getPte e
        if pte &&& PTE_V ≠ 0 then
          Prog.stop .remap
        else do
          setPte e (PA2PTE pa ||| perm ||| PTE_V)
          if a = last then pure true
          else mappagesLoop pagetable last perm fuel (add64 a PGSIZE) (add64 pa PGSIZE)

def mappages (pagetable va size pa : Nat) (perm : UInt64) : VmM Bool :=
  mappagesLoop pagetable (PGROUNDDOWN (add64 va (size + (2 ^ 64 - 1)))) perm
    (MAXVA / PGSIZE + 1) (PGROUNDDOWN va) pa

def kfreeIf (L : Link) (doFree : Bool) (pa : Nat) : VmM Unit :=
  if doFree = true then kfree L pa else pure ()

/-- One round of `uvmunmap`. -/
def unmapPage (L : Link) (pagetable : Nat) (doFree : Bool) (a : Nat) : VmM Unit := do
  let r ← walk pagetable a false
  match r with
  | none => Prog.stop .unmapWalk
  | some e =>
    let pte ← getPte e
    if pte &&& PTE_V = 0 then
      Prog.stop .unmapNotMapped
    else if PTE_FLAGS pte = PTE_V then
      Prog.stop .unmapNotLeaf
    else do
      kfreeIf L doFree (PTE2PA pte)
      setPte e 0

def uvmunmap (L : Link) (pagetable va npages : Nat) (doFree : Bool) : VmM Unit :=
  if va % PGSIZE ≠ 0 then
    Prog.stop .unmapNotAligned
  else
    Prog.forRange (fun i => unmapPage L pagetable doFree (va + i * PGSIZE)) 0
      (rounds va (add64 va (npages * PGSIZE)))

/-! ## User memory -/

def uvmcreate : VmM Nat := do
  let pagetable ← kalloc
  if pagetable = 0 then
    pure 0
  else do
    memset pagetable 0
    pure pagetable

/-- `memmove(mem, src, sz)` to the start of a page. -/
def fill (pa off len : Nat) (src : Nat → UInt8) : VmM Unit :=
  Prog.modify fun s => s.setPage pa ((s.page pa).splice off len src)

/-- `uvminit`; a null pointer from `kalloc` is written through, and the result
of `mappages` is not looked at. -/
def uvminit (pagetable : Nat) (src : Nat → UInt8) (sz : Nat) : VmM Unit :=
  if PGSIZE ≤ sz then
    Prog.stop .inituvm
  else do
    let mem ← kalloc
    if mem = 0 then
      Prog.stop .kerneltrap
    else do
      memset mem 0
      let _ ← mappages pagetable 0 PGSIZE mem (PTE_W ||| PTE_R ||| PTE_X ||| PTE_U)
      fill mem 0 sz src

/-- An `int` widened to `uint64`. -/
def int64 (x : Nat) : Nat :=
  if x % 2 ^ 32 < 2 ^ 31 then x % 2 ^ 32 else x % 2 ^ 32 + (2 ^ 64 - 2 ^ 32)

def uvmdealloc (L : Link) (pagetable oldsz newsz : Nat) : VmM Nat :=
  if oldsz ≤ newsz then
    pure oldsz
  else if PGROUNDUP newsz < PGROUNDUP oldsz then do
    uvmunmap L pagetable (PGROUNDUP newsz)
      (int64 ((PGROUNDUP oldsz - PGROUNDUP newsz) / PGSIZE)) true
    pure newsz
  else
    pure newsz

/-- One round of `uvmalloc`; true when it fails. -/
def allocPage (L : Link) (pagetable oldsz a : Nat) : VmM (Option Unit) := do
  let mem ← kalloc
  if mem = 0 then do
    let _ ← uvmdealloc L pagetable a oldsz
    pure (some ())
  else do
    memset mem 0
    let ok ← mappages pagetable a PGSIZE mem (PTE_W ||| PTE_X ||| PTE_R ||| PTE_U)
    if ok = true then
      pure none
    else do
      kfree L mem
      let _ ← uvmdealloc L pagetable a oldsz
      pure (some ())

/-- The result is 0 for failure. -/
def uvmalloc (L : Link) (pagetable oldsz newsz : Nat) : VmM Nat :=
  if newsz < oldsz then
    pure oldsz
  else do
    let r ← Prog.findRange (fun i => allocPage L pagetable (PGROUNDUP oldsz)
      (PGROUNDUP oldsz + i * PGSIZE)) 0 (rounds (PGROUNDUP oldsz) newsz)
    match r with
    | some _ => pure 0
    | none => pure newsz

/-- One entry of `freewalk`; `free` frees a table of the level below. -/
def freeEntry (free : Nat → VmM Unit) (pagetable i : Nat) : VmM Unit := do
  let pte ← getPte (pagetable, i)
  if pte &&& PTE_V ≠ 0 ∧ pte &&& (PTE_R ||| PTE_W ||| PTE_X) = 0 then do
    free (PTE2PA pte)
    setPte (pagetable, i) 0
  else if pte &&& PTE_V ≠ 0 then
    Prog.stop .freewalkLeaf
  else
    pure ()

/-- `freewalk` with a bound on the depth of the recursion. -/
def freewalk (L : Link) : Nat → Nat → VmM Unit
  | 0, _ => Prog.stop .kerneltrap
  | depth + 1, pagetable => do
      Prog.forRange (freeEntry (freewalk L depth) pagetable) 0 512
      kfree L pagetable

def uvmfree (L : Link) (pagetable sz : Nat) : VmM Unit :=
  if 0 < sz then do
    uvmunmap L pagetable 0 (PGROUNDUP sz / PGSIZE) true
    freewalk L 3 pagetable
  else
    freewalk L 3 pagetable

/-- One round of `uvmcopy`; true when it fails. -/
def copyPage (L : Link) (old new i : Nat) : VmM (Option Nat) := do
  let r ← walk old i false
  match r with
  | none => Prog.stop .uvmcopyPte
  | some e =>
    let pte ← getPte e
    if pte &&& PTE_V = 0 then
      Prog.stop .uvmcopyPage
    else do
      let mem ← kalloc
      if mem = 0 then
        pure (some i)
      else do
        Prog.modify fun s => s.setPage mem (s.page (PTE2PA pte))
        let ok ← mappages new i PGSIZE mem (PTE_FLAGS pte)
        if ok = true then
          pure none
        else do
          kfree L mem
          pure (some i)

/-- The result is false for `-1`. -/
def uvmcopy (L : Link) (old new sz : Nat) : VmM Bool := do
  let r ← Prog.findRange (fun j => copyPage L old new (j * PGSIZE)) 0 (rounds 0 sz)
  match r with
  | some i =>
    uvmunmap L new 0 (i / PGSIZE) true
    pure false
  | none => pure true

def uvmclear (pagetable va : Nat) : VmM Unit := do
  let r ← walk pagetable va false
  match r with
  | none => Prog.stop .uvmclear
  | some e =>
    let pte ← getPte e
    setPte e (pte &&& ~~~PTE_U)

/-! ## Copying -/

/-- The loop of `copyout`; each round copies at least one byte. -/
def copyoutLoop (pagetable : Nat) (src : Nat → UInt8) : Nat → Nat → Nat → Nat → VmM Bool
  | 0, _, _, len => pure (decide (len = 0))
  | fuel + 1, dstva, done, len =>
    if len = 0 then
      pure true
    else do
      let pa0 ← walkaddr pagetable (PGROUNDDOWN dstva)
      if pa0 = 0 then
        pure false
      else do
        fill pa0 (dstva % PGSIZE) (min (PGSIZE - dstva % PGSIZE) len) fun j => src (done + j)
        copyoutLoop pagetable src fuel (add64 (PGROUNDDOWN dstva) PGSIZE)
          (done + min (PGSIZE - dstva % PGSIZE) len) (len - min (PGSIZE - dstva % PGSIZE) len)

/-- Copy `src 0, .., src (len - 1)` to user address `dstva`. -/
def copyout (pagetable dstva : Nat) (src : Nat → UInt8) (len : Nat) : VmM Bool :=
  copyoutLoop pagetable src len dstva 0 len

/-- The bytes of a page from an offset on. -/
def bytesAt (b : Bytes PGSIZE) (off n : Nat) : List UInt8 :=
  (List.range n).map fun j => b.get (off + j)

/-- The loop of `copyin`.  The result is the bytes stored at the destination and
whether all were. -/
def copyinLoop (pagetable : Nat) : Nat → Nat → Nat → VmM (List UInt8 × Bool)
  | 0, _, len => pure ([], decide (len = 0))
  | fuel + 1, srcva, len =>
    if len = 0 then
      pure ([], true)
    else do
      let pa0 ← walkaddr pagetable (PGROUNDDOWN srcva)
      if pa0 = 0 then
        pure ([], false)
      else do
        let b ← Prog.gets fun s => s.page pa0
        let r ← copyinLoop pagetable fuel (add64 (PGROUNDDOWN srcva) PGSIZE)
          (len - min (PGSIZE - srcva % PGSIZE) len)
        pure (bytesAt b (srcva % PGSIZE) (min (PGSIZE - srcva % PGSIZE) len) ++ r.1, r.2)

def copyin (pagetable srcva len : Nat) : VmM (List UInt8 × Bool) :=
  copyinLoop pagetable len srcva len

/-- The inner loop of `copyinstr`: the bytes copied from one page, and whether
the last of them is the terminating zero. -/
def upToNul : List UInt8 → List UInt8 × Bool
  | [] => ([], false)
  | c :: rest => if c = 0 then ([0], true) else (c :: (upToNul rest).1, (upToNul rest).2)

def copyinstrLoop (pagetable : Nat) : Nat → Nat → Nat → VmM (List UInt8 × Bool)
  | 0, _, _ => pure ([], false)
  | fuel + 1, srcva, max =>
    if max = 0 then
      pure ([], false)
    else do
      let pa0 ← walkaddr pagetable (PGROUNDDOWN srcva)
      if pa0 = 0 then
        pure ([], false)
      else do
        let b ← Prog.gets fun s => s.page pa0
        let n := min (PGSIZE - srcva % PGSIZE) max
        let got := upToNul (bytesAt b (srcva % PGSIZE) n)
        if got.2 = true then
          pure got
        else do
          let r ← copyinstrLoop pagetable fuel (add64 (PGROUNDDOWN srcva) PGSIZE) (max - n)
          pure (got.1 ++ r.1, r.2)

/-- Copy a string from user address `srcva`: the bytes stored at the
destination, and whether a terminating zero is among them. -/
def copyinstr (pagetable srcva max : Nat) : VmM (List UInt8 × Bool) :=
  copyinstrLoop pagetable max srcva max

end Vm

end Xv6.Kernel
