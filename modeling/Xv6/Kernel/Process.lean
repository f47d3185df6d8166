import Xv6.Kernel.Exec
import Xv6.Kernel.Proc
/-!
# Processes and the pages they own

What `proc.c`, `file.c`, `pipe.c` and `sysfile.c` do to physical pages, one
system call at a time: process creation and exit, memory, and pipes.  Current
directories, files other than pipes, names and process ids are left out: they
hold no page.
-/

namespace Xv6.Kernel

open Xv6.Lib Function

/-- The fields of `struct proc` that lead to pages. -/
structure Pcb where
  state : Procstate
  parent : Option ProcId
  xstate : UInt32
  trapframe : Nat
  pagetable : Nat
  sz : Nat
  ofile : Fin NOFILE → Option (Fin NFILE)

def Pcb.free : Pcb where
  state := .unused
  parent := none
  xstate := 0
  trapframe := 0
  pagetable := 0
  sz := 0
  ofile := fun _ => none

/-- An open file: nothing, or one end of the pipe in page `pi`. -/
inductive PipeEnd where
  | none
  | pipe (pi : Nat) (writable : Bool)
  deriving DecidableEq, Repr

structure PipeFile where
  kind : PipeEnd
  ref : Int

/-- `readopen` and `writeopen` of a `struct pipe`. -/
structure Ends where
  readopen : Bool
  writeopen : Bool

/-- What `pipeclose` does to the flag of one end. -/
def Ends.close (x : Ends) (writable : Bool) : Ends :=
  if writable = true then { x with writeopen := false } else { x with readopen := false }

structure Kern where
  phys : Phys
  proc : ProcId → Pcb
  ftable : Fin NFILE → PipeFile
  pipe : Nat → Ends

abbrev KernM (α : Type) : Type := Prog Kern VmPanic α

namespace Kern

def initproc : ProcId := ⟨0, NPROC_pos⟩

def vm {α : Type} (f : VmM α) : KernM α :=
  Prog.zoom Kern.phys (fun k s => { k with phys := s }) f

def setProc (k : Kern) (p : ProcId) (x : Pcb) : Kern :=
  { k with proc := update k.proc p x }

def setFile (k : Kern) (f : Fin NFILE) (x : PipeFile) : Kern :=
  { k with ftable := update k.ftable f x }

def setPipe (k : Kern) (pi : Nat) (x : Ends) : Kern :=
  { k with pipe := update k.pipe pi x }

def setFd (k : Kern) (p : ProcId) (fd : Fin NOFILE) (f : Option (Fin NFILE)) : Kern :=
  k.setProc p { k.proc p with ofile := update (k.proc p).ofile fd f }

def getProc (p : ProcId) : KernM Pcb := Prog.gets fun k => k.proc p

def modifyProc (p : ProcId) (f : Pcb → Pcb) : KernM Unit :=
  Prog.modify fun k => k.setProc p (f (k.proc p))

/-! ## Creating and freeing processes -/

def kfreeNonzero (L : Link) (pa : Nat) : KernM Unit := if pa = 0 then pure () else vm (kfree L pa)

def freePagetableNonzero (L : Link) (pagetable sz : Nat) : KernM Unit :=
  if pagetable = 0 then pure () else vm (Vm.procFreepagetable L pagetable sz)

def freeproc (L : Link) (p : ProcId) : KernM Unit := do
  let x ← getProc p
  kfreeNonzero L x.trapframe
  modifyProc p fun x => { x with trapframe := 0 }
  freePagetableNonzero L x.pagetable x.sz
  modifyProc p fun x =>
    { x with pagetable := 0, sz := 0, parent := none, xstate := 0, state := .unused }

def unusedProc (k : Kern) : Option ProcId :=
  (List.finRange NPROC).find? fun p => (k.proc p).state = .unused

def allocproc (L : Link) : KernM (Option ProcId) := do
  let k ← Prog.get
  match k.unusedProc with
  | none => pure none
  | some p =>
    let tf ← vm kalloc
    modifyProc p fun x => { x with trapframe := tf }
    if tf = 0 then
      pure none
    else do
      let pagetable ← vm (Vm.procPagetable L tf)
      modifyProc p fun x => { x with pagetable := pagetable }
      if pagetable = 0 then do
        freeproc L p
        pure none
      else
        pure (some p)

def initcode : List UInt8 :=
  [0x17, 0x05, 0x00, 0x00, 0x13, 0x05, 0x45, 0x02, 0x97, 0x05, 0x00, 0x00, 0x93, 0x85, 0x35, 0x02,
   0x93, 0x08, 0x70, 0x00, 0x73, 0x00, 0x00, 0x00, 0x93, 0x08, 0x20, 0x00, 0x73, 0x00, 0x00, 0x00,
   0xef, 0xf0, 0x9f, 0xff, 0x2f, 0x69, 0x6e, 0x69, 0x74, 0x00, 0x00, 0x24, 0x00, 0x00, 0x00, 0x00,
   0x00, 0x00, 0x00, 0x00]

/-- `userinit`; when `allocproc` fails, a null pointer is followed. -/
def userinit (L : Link) : KernM Unit := do
  let r ← allocproc L
  match r with
  | none => Prog.stop .kerneltrap
  | some p =>
    let x ← getProc p
    vm (Vm.uvminit x.pagetable (fun j => initcode.getD j 0) initcode.length)
    vm (Vm.setPte (x.trapframe, 3) 0)
    vm (Vm.setPte (x.trapframe, 6) (UInt64.ofNat PGSIZE))
    modifyProc p fun x => { x with sz := PGSIZE, state := .runnable }

/-! ## Open files -/

def filealloc : KernM (Option (Fin NFILE)) := do
  let k ← Prog.get
  match (List.finRange NFILE).find? fun f => (k.ftable f).ref = 0 with
  | none => pure none
  | some f =>
    Prog.modify fun k => k.setFile f { k.ftable f with ref := 1 }
    pure (some f)

def filedup (f : Fin NFILE) : KernM Unit := do
  let k ← Prog.get
  if (k.ftable f).ref < 1 then Prog.stop .filedup
  else Prog.modify fun k => k.setFile f { k.ftable f with ref := (k.ftable f).ref + 1 }

def pipeclose (L : Link) (pi : Nat) (writable : Bool) : KernM Unit := do
  Prog.modify fun k => k.setPipe pi (Ends.close (k.pipe pi) writable)
  let k ← Prog.get
  if (k.pipe pi).readopen = false ∧ (k.pipe pi).writeopen = false then vm (kfree L pi)
  else pure ()

def closeEnd (L : Link) (kind : PipeEnd) : KernM Unit :=
  match kind with
  | .none => pure ()
  | .pipe pi writable => pipeclose L pi writable

def fileclose (L : Link) (f : Fin NFILE) : KernM Unit := do
  let k ← Prog.get
  let ff := k.ftable f
  if ff.ref < 1 then
    Prog.stop .fileclose
  else if ff.ref - 1 > 0 then
    Prog.modify fun k => k.setFile f { ff with ref := ff.ref - 1 }
  else do
    Prog.modify fun k => k.setFile f { kind := .none, ref := 0 }
    closeEnd L ff.kind

/-- `bad` of `pipealloc`, with the files allocated so far. -/
def closeAll (L : Link) : List (Fin NFILE) → KernM Unit
  | [] => pure ()
  | f :: rest => do
      fileclose L f
      closeAll L rest

def pipealloc (L : Link) : KernM (Option (Fin NFILE × Fin NFILE)) := do
  let r ← filealloc
  match r with
  | none => pure none
  | some f0 =>
    let r ← filealloc
    match r with
    | none => do
        closeAll L [f0]
        pure none
    | some f1 =>
      let pi ← vm kalloc
      if pi = 0 then do
        closeAll L [f0, f1]
        pure none
      else do
        Prog.modify fun k => k.setPipe pi ⟨true, true⟩
        Prog.modify fun k => k.setFile f0 { k.ftable f0 with kind := .pipe pi false }
        Prog.modify fun k => k.setFile f1 { k.ftable f1 with kind := .pipe pi true }
        pure (some (f0, f1))

def fdalloc (p : ProcId) (f : Fin NFILE) : KernM (Option (Fin NOFILE)) := do
  let x ← getProc p
  match (List.finRange NOFILE).find? fun fd => x.ofile fd = none with
  | none => pure none
  | some fd =>
    Prog.modify fun k => k.setFd p fd (some f)
    pure (some fd)

/-- `copyout` of an `int` to the address space of `p`. -/
def copyoutInt (p : ProcId) (addr : Nat) (v : UInt32) : KernM Bool := do
  let x ← getProc p
  vm (Vm.copyout x.pagetable addr (fun j => UInt8.ofNat (v.toNat / 256 ^ j)) 4)

/-- Store both descriptors; the second is not stored when the first fails. -/
def copyoutFds (p : ProcId) (fdarray : Nat) (fd0 fd1 : Fin NOFILE) : KernM Bool := do
  let ok ← copyoutInt p fdarray (UInt32.ofNat fd0.val)
  if ok = true then copyoutInt p (add64 fdarray 4) (UInt32.ofNat fd1.val) else pure false

/-- Undo `sys_pipe`: clear the descriptors and close both ends. -/
def pipeUndo (L : Link) (p : ProcId) (fds : List (Fin NOFILE)) (rf wf : Fin NFILE) :
    KernM Unit := do
  Prog.modify fun k => fds.foldl (fun k fd => k.setFd p fd none) k
  closeAll L [rf, wf]

/-- The result is false for `-1`. -/
def sysPipe (L : Link) (p : ProcId) (fdarray : Nat) : KernM Bool := do
  let r ← pipealloc L
  match r with
  | none => pure false
  | some (rf, wf) =>
    let r ← fdalloc p rf
    match r with
    | none => do
        pipeUndo L p [] rf wf
        pure false
    | some fd0 =>
      let r ← fdalloc p wf
      match r with
      | none => do
          pipeUndo L p [fd0] rf wf
          pure false
      | some fd1 =>
        let ok ← copyoutFds p fdarray fd0 fd1
        if ok = true then
          pure true
        else do
          pipeUndo L p [fd0, fd1] rf wf
          pure false

def sysClose (L : Link) (p : ProcId) (fd : Fin NOFILE) : KernM Bool := do
  let x ← getProc p
  match x.ofile fd with
  | none => pure false
  | some f => do
      Prog.modify fun k => k.setFd p fd none
      fileclose L f
      pure true

/-! ## Processes -/

/-- The loop of `fork` over the descriptors. -/
def dupFds (p np : ProcId) : List (Fin NOFILE) → KernM Unit
  | [] => pure ()
  | fd :: rest => do
      let x ← getProc p
      match x.ofile fd with
      | none => dupFds p np rest
      | some f => do
          filedup f
          Prog.modify fun k => k.setFd np fd (some f)
          dupFds p np rest

/-- `*(np->trapframe) = *(p->trapframe); np->trapframe->a0 = 0`. -/
def copyTrapframe (src dst : Nat) : VmM Unit := do
  Prog.modify fun s => s.setPage dst ((s.page dst).splice 0 288 fun j => (s.page src).get j)
  Vm.setPte (dst, 14) 0

/-- The result is the child, or nothing for `-1`. -/
def fork (L : Link) (p : ProcId) : KernM (Option ProcId) := do
  let r ← allocproc L
  match r with
  | none => pure none
  | some np =>
    let x ← getProc p
    let y ← getProc np
    let ok ← vm (Vm.uvmcopy L x.pagetable y.pagetable x.sz)
    if ok = true then do
      modifyProc np fun y => { y with sz := x.sz, parent := some p }
      vm (copyTrapframe x.trapframe y.trapframe)
      dupFds p np (List.finRange NOFILE)
      modifyProc np fun y => { y with state := .runnable }
      pure (some np)
    else do
      freeproc L np
      pure none

/-- The loop of `exit` over the descriptors. -/
def closeFds (L : Link) (p : ProcId) : List (Fin NOFILE) → KernM Unit
  | [] => pure ()
  | fd :: rest => do
      let x ← getProc p
      match x.ofile fd with
      | none => closeFds L p rest
      | some f => do
          fileclose L f
          Prog.modify fun k => k.setFd p fd none
          closeFds L p rest

/-- Give the children of `p` to `initproc`. -/
def reparent (k : Kern) (p : ProcId) : Kern :=
  { k with proc := fun q =>
      if (k.proc q).parent = some p then { k.proc q with parent := some initproc } else k.proc q }

def exit (L : Link) (p : ProcId) (status : UInt32) : KernM Unit :=
  if p = initproc then
    Prog.stop .initExiting
  else do
    closeFds L p (List.finRange NOFILE)
    Prog.modify fun k => k.reparent p
    modifyProc p fun x => { x with xstate := status, state := .zombie }

/-- The first child of `p` that has exited. -/
def zombieChild (k : Kern) (p : ProcId) : Option ProcId :=
  (List.finRange NPROC).find? fun q => (k.proc q).parent = some p ∧ (k.proc q).state = .zombie

/-- `wait`, as far as it gets without sleeping: the child that was reaped. -/
def wait (L : Link) (p : ProcId) (addr : Nat) : KernM (Option ProcId) := do
  let k ← Prog.get
  match k.zombieChild p with
  | none => pure none
  | some np =>
    if addr = 0 then do
      freeproc L np
      pure (some np)
    else do
      let ok ← copyoutInt p addr (k.proc np).xstate
      if ok = true then do
        freeproc L np
        pure (some np)
      else
        pure none

def sbrk (L : Link) (p : ProcId) (n : Int32) : KernM Bool := do
  let x ← getProc p
  let r ← vm (Vm.growproc L x.pagetable x.sz n)
  match r with
  | none => pure false
  | some sz => do
      modifyProc p fun x => { x with sz := sz }
      pure true

def exec (L : Link) (p : ProcId) (path : Option (Option Exe)) (uargv : Nat) : KernM Bool := do
  let x ← getProc p
  let r ← vm (Vm.sysExec L x.trapframe x.pagetable x.sz path uargv)
  match r with
  | none => pure false
  | some image => do
      modifyProc p fun x => { x with pagetable := image.pagetable, sz := image.sz }
      pure true

end Kern

end Xv6.Kernel
