import Xv6.Kernel.Paging
/-!
# Programs

`exec.c`, `elf.h`, and the functions of `proc.c`, `sysfile.c` and `syscall.c`
that work on one process's memory.  What the file system delivers is an
argument: `Exe.read off n` are the bytes that `readi(ip, 0, dst, off, n)` stores
at `dst`.
-/

namespace Xv6.Kernel

open Xv6.Lib

def MAXARG : Nat := 32
def ELF_MAGIC : UInt32 := 0x464C457F
def ELF_PROG_LOAD : UInt32 := 1

/-- A file as `exec` reads it. -/
structure Exe where
  read : Nat → Nat → List UInt8
  short : ∀ off n, (read off n).length ≤ n

/-- A file with the given bytes, read with 32-bit `off` and `n`: `readi` answers 0
when `off` is past the end and when `off + n` wraps. -/
def Exe.ofFile (content : List UInt8) : Exe where
  read := fun off n =>
    if content.length < off ∨ 2 ^ 32 ≤ off + n then [] else (content.drop off).take n
  short := by
    intro off n
    split
    · exact Nat.zero_le n
    · exact List.length_take_le n _

/-- The bytes of a C structure, zero past the end of the list. -/
def structOf (N : Nat) (l : List UInt8) : Bytes N := fun j => l.getD j.val 0

structure Elfhdr where
  magic : UInt32
  entry : UInt64
  phoff : UInt64
  phnum : UInt16

def Elfhdr.decode (b : Bytes 64) : Elfhdr where
  magic := b.u32 0
  entry := b.u64 24
  phoff := b.u64 32
  phnum := b.u16 56

structure Proghdr where
  type : UInt32
  off : Nat
  vaddr : Nat
  filesz : Nat
  memsz : Nat

def Proghdr.decode (b : Bytes 56) : Proghdr where
  type := b.u32 0
  off := (b.u64 8).toNat
  vaddr := (b.u64 16).toNat
  filesz := (b.u64 32).toNat
  memsz := (b.u64 40).toNat

namespace Vm

/-! ## Page tables of processes -/

/-- A page table with the trampoline and the trapframe `tf`; 0 for failure. -/
def procPagetable (L : Link) (tf : Nat) : VmM Nat := do
  let pagetable ← uvmcreate
  if pagetable = 0 then
    pure 0
  else do
    let ok ← mappages pagetable TRAMPOLINE PGSIZE L.trampoline (PTE_R ||| PTE_X)
    if ok = false then do
      uvmfree L pagetable 0
      pure 0
    else do
      let ok ← mappages pagetable TRAPFRAME PGSIZE tf (PTE_R ||| PTE_W)
      if ok = false then do
        uvmunmap L pagetable TRAMPOLINE 1 false
        uvmfree L pagetable 0
        pure 0
      else
        pure pagetable

def procFreepagetable (L : Link) (pagetable sz : Nat) : VmM Unit := do
  uvmunmap L pagetable TRAMPOLINE 1 false
  uvmunmap L pagetable TRAPFRAME 1 false
  uvmfree L pagetable sz

/-- `growproc(n)` for a process of size `sz`: the new size, or nothing for
`-1`. -/
def growproc (L : Link) (pagetable sz : Nat) (n : Int32) : VmM (Option Nat) :=
  if 0 < n.toInt then do
    let r ← uvmalloc L pagetable (sz % 2 ^ 32) ((sz + n.toInt) % 2 ^ 32).toNat
    if r % 2 ^ 32 = 0 then pure none else pure (some (r % 2 ^ 32))
  else if n.toInt < 0 then do
    let r ← uvmdealloc L pagetable (sz % 2 ^ 32) ((sz + n.toInt) % 2 ^ 32).toNat
    pure (some (r % 2 ^ 32))
  else
    pure (some (sz % 2 ^ 32))

/-! ## Loading -/

/-- One round of `loadseg`; an answer means that it returns `-1`. -/
def loadPage (pagetable va : Nat) (ip : Exe) (off n : Nat) : VmM (Option Unit) := do
  let pa ← walkaddr pagetable va
  if pa = 0 then
    Prog.stop .loadsegAddress
  else do
    let b := ip.read off n
    fill pa 0 b.length fun j => b.getD j 0
    if b.length = n then pure none else pure (some ())

/-- The result is false for `-1`. -/
def loadseg (pagetable va : Nat) (ip : Exe) (offset sz : Nat) : VmM Bool :=
  if va % PGSIZE ≠ 0 then
    Prog.stop .loadsegAligned
  else do
    let r ← Prog.findRange (fun i => loadPage pagetable (add64 va (i * PGSIZE)) ip
      ((offset + i * PGSIZE) % 2 ^ 32) (min (sz - i * PGSIZE) PGSIZE)) 0 (rounds 0 sz)
    pure r.isNone

/-- The loop over the program headers, with `k` of them to go.  The result is
the size so far, and false when `exec` goes to `bad`. -/
def loadSegments (L : Link) (pagetable : Nat) (ip : Exe) : Nat → Nat → Nat → VmM (Nat × Bool)
  | 0, _, sz => pure (sz, true)
  | k + 1, off, sz =>
    let b := ip.read (off % 2 ^ 32) 56
    let ph := Proghdr.decode (structOf 56 b)
    if b.length ≠ 56 then
      pure (sz, false)
    else if ph.type ≠ ELF_PROG_LOAD then
      loadSegments L pagetable ip k (off + 56) sz
    else if ph.memsz < ph.filesz then
      pure (sz, false)
    else if add64 ph.vaddr ph.memsz < ph.vaddr then
      pure (sz, false)
    else do
      let sz1 ← uvmalloc L pagetable sz (add64 ph.vaddr ph.memsz)
      if sz1 = 0 then
        pure (sz, false)
      else if ph.vaddr % PGSIZE ≠ 0 then
        pure (sz1, false)
      else do
        let ok ← loadseg pagetable ph.vaddr ip (ph.off % 2 ^ 32) (ph.filesz % 2 ^ 32)
        if ok = true then loadSegments L pagetable ip k (off + 56) sz1
        else pure (sz1, false)

/-! ## The stack -/

/-- The index of the first zero byte. -/
def strlen (b : Bytes PGSIZE) : Nat :=
  ((List.range PGSIZE).find? fun i => b.get i = 0).getD PGSIZE

/-- `sp -= n; sp -= sp % 16`. -/
def pushDown (sp n : Nat) : Nat :=
  add64 sp (2 ^ 64 - n) - add64 sp (2 ^ 64 - n) % 16

/-- Push the argument strings; `ustack` are the addresses so far. -/
def pushArgs (pagetable stackbase : Nat) : List Nat → Nat → List Nat → VmM (Option (Nat × List Nat))
  | [], sp, ustack => pure (some (sp, ustack))
  | arg :: rest, sp, ustack =>
    if MAXARG ≤ ustack.length then
      pure none
    else do
      let b ← Prog.gets fun s => s.page arg
      let sp' := pushDown sp (strlen b + 1)
      if sp' < stackbase then
        pure none
      else do
        let ok ← copyout pagetable sp' b.get (strlen b + 1)
        if ok = true then pushArgs pagetable stackbase rest sp' (ustack ++ [sp'])
        else pure none

/-- The bytes of an array of `uint64`. -/
def wordBytes (ws : List Nat) (j : Nat) : UInt8 := UInt8.ofNat (ws.getD (j / 8) 0 / 256 ^ (j % 8))

/-- What `exec` leaves in the process. -/
structure Image where
  pagetable : Nat
  sz : Nat
  argc : Nat

/-- `bad`, with a page table of size `sz`. -/
def execBad (L : Link) (pagetable sz : Nat) : VmM (Option Image) := do
  procFreepagetable L pagetable sz
  pure none

/-- The end of `exec`: commit to the new image. -/
def execCommit (L : Link) (tf oldpagetable oldsz pagetable sz sp argc : Nat) (entry : UInt64) :
    VmM (Option Image) := do
  setPte (tf, 15) (UInt64.ofNat sp)
  setPte (tf, 3) entry
  setPte (tf, 6) (UInt64.ofNat sp)
  procFreepagetable L oldpagetable oldsz
  pure (some ⟨pagetable, sz, argc⟩)

/-- `exec` from the stack on; `sz` is the size after loading. -/
def execStack (L : Link) (tf oldpagetable oldsz pagetable sz : Nat) (entry : UInt64)
    (argv : List Nat) : VmM (Option Image) := do
  let sz1 ← uvmalloc L pagetable (PGROUNDUP sz) (add64 (PGROUNDUP sz) (2 * PGSIZE))
  if sz1 = 0 then
    execBad L pagetable (PGROUNDUP sz)
  else do
    uvmclear pagetable (sz1 - 2 * PGSIZE)
    let r ← pushArgs pagetable (sz1 - PGSIZE) argv sz1 []
    match r with
    | none => execBad L pagetable sz1
    | some (sp, ustack) =>
      let sp' := pushDown sp ((ustack.length + 1) * 8)
      if sp' < sz1 - PGSIZE then
        execBad L pagetable sz1
      else do
        let ok ← copyout pagetable sp' (wordBytes ustack) ((ustack.length + 1) * 8)
        if ok = true then
          execCommit L tf oldpagetable oldsz pagetable sz1 sp' ustack.length entry
        else
          execBad L pagetable sz1

/-- `exec` by a process with trapframe `tf` and the given page table and size.
`file` is what `namei` finds; the pages `argv` hold the argument strings. -/
def exec (L : Link) (tf oldpagetable oldsz : Nat) (file : Option Exe) (argv : List Nat) :
    VmM (Option Image) :=
  match file with
  | none => pure none
  | some ip =>
    let h := ip.read 0 64
    let elf := Elfhdr.decode (structOf 64 h)
    if h.length ≠ 64 then
      pure none
    else if elf.magic ≠ ELF_MAGIC then
      pure none
    else do
      let pagetable ← procPagetable L tf
      if pagetable = 0 then
        pure none
      else do
        let r ← loadSegments L pagetable ip elf.phnum.toNat elf.phoff.toNat 0
        if r.2 = true then execStack L tf oldpagetable oldsz pagetable r.1 elf.entry argv
        else execBad L pagetable r.1

/-! ## What `exec` leaves in the process -/

/-- The fields of `struct proc` that `exec` assigns; the registers it sets are in
the trapframe. -/
structure ExecProc where
  pagetable : Nat
  sz : Nat
  name : List UInt8

/-- `sizeof(p->name)`. -/
def NAMELEN : Nat := 16

/-- What follows the last slash. -/
def lastElem (path : List UInt8) : List UInt8 := (path.reverse.takeWhile (· != 47)).reverse

/-- `exec(path, argv)`: the result, and the process afterwards. -/
def execProc (L : Link) (tf : Nat) (p : ExecProc) (path : List UInt8) (file : Option Exe)
    (argv : List Nat) : VmM (Int × ExecProc) := do
  let r ← exec L tf p.pagetable p.sz file argv
  match r with
  | none => pure (-1, p)
  | some image =>
    pure (image.argc, ⟨image.pagetable, image.sz, (lastElem path).take (NAMELEN - 1)⟩)

/-! ## `sys_exec` -/

def fetchaddr (pagetable sz addr : Nat) : VmM (Option Nat) :=
  if sz ≤ addr ∨ sz < add64 addr 8 then
    pure none
  else do
    let r ← copyin pagetable addr 8
    if r.2 = true then pure (some ((structOf 8 r.1).u64 0).toNat) else pure none

/-- `fetchstr(addr, pa, PGSIZE)`; false for `-1`. -/
def fetchstr (pagetable addr pa : Nat) : VmM Bool := do
  let r ← copyinstr pagetable addr PGSIZE
  fill pa 0 r.1.length fun j => r.1.getD j 0
  pure r.2

/-- The loop of `sys_exec`, with `k` slots of `argv` left.  The result is the
pages allocated, and false when it goes to `bad`. -/
def fetchArgs (pagetable sz uargv : Nat) : Nat → List Nat → VmM (List Nat × Bool)
  | 0, argv => pure (argv, false)
  | k + 1, argv => do
      let r ← fetchaddr pagetable sz (add64 uargv (8 * argv.length))
      match r with
      | none => pure (argv, false)
      | some uarg =>
        if uarg = 0 then
          pure (argv, true)
        else do
          let pa ← kalloc
          if pa = 0 then
            pure (argv, false)
          else do
            let ok ← fetchstr pagetable uarg pa
            if ok = true then fetchArgs pagetable sz uargv k (argv ++ [pa])
            else pure (argv ++ [pa], false)

def freeArgs (L : Link) : List Nat → VmM Unit
  | [] => pure ()
  | pa :: rest => do
      kfree L pa
      freeArgs L rest

/-- `sys_exec`.  `path` is `none` when `argstr` fails, and `some none` when
`namei` does. -/
def sysExec (L : Link) (tf pagetable sz : Nat) (path : Option (Option Exe)) (uargv : Nat) :
    VmM (Option Image) :=
  match path with
  | none => pure none
  | some file => do
      let r ← fetchArgs pagetable sz uargv MAXARG []
      if r.2 = true then do
        let image ← exec L tf pagetable sz file r.1
        freeArgs L r.1
        pure image
      else do
        freeArgs L r.1
        pure none

end Vm

end Xv6.Kernel
