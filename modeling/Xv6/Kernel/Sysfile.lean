import Xv6.Kernel.File
/-!
# Opening files

`sys_open` and `create` of `sysfile.c`.  A path argument is `none` when
`argstr` fails to fetch it.
-/

namespace Xv6.Kernel

open Xv6.Lib

def O_RDONLY : UInt32 := 0x000
def O_WRONLY : UInt32 := 0x001
def O_RDWR : UInt32 := 0x002
def O_CREATE : UInt32 := 0x200
def O_TRUNC : UInt32 := 0x400

/-! ## Descriptors -/

namespace Sys

def setProc (k : Sys) (p : ProcId) (x : ProcFiles) : Sys :=
  { k with proc := Function.update k.proc p x }

def setFd (k : Sys) (p : ProcId) (fd : Fin NOFILE) (f : Option FileId) : Sys :=
  k.setProc p { k.proc p with ofile := Function.update (k.proc p).ofile fd f }

def freeFd (k : Sys) : Option (Fin NOFILE) :=
  (List.finRange NOFILE).find? fun fd => (k.proc k.cur).ofile fd = none

end Sys

def fdalloc (f : FileId) : FsM (Option (Fin NOFILE)) := do
  let k ← Prog.get
  match k.freeFd with
  | some fd =>
    Prog.modify fun k => k.setFd k.cur fd (some f)
    pure (some fd)
  | none => pure none

/-! ## Links -/

/-- `end_op(); return r`. -/
def endWith (r : Int) : FsM Int := do
  lift endOp
  pure r

/-- `ip->nlink += delta; iupdate(ip)`. -/
def addLink (ip : InodeId) (delta : Int16) : FsM Unit := do
  modifyDinode ip fun di => { di with nlink := di.nlink + delta }
  iupdate ip

/-! ## Creating -/

/-- `create` when the name exists. -/
def createExisting (dp ip : InodeId) (type : Int16) : FsM (Option InodeId) := do
  iunlockput dp
  ilock ip
  let i ← getInode ip
  if type = T_FILE ∧ (i.di.type = T_FILE ∨ i.di.type = T_DEVICE) then
    pure (some ip)
  else
    iunlockput ip
    pure none

/-- The entries `.` and `..` of a new directory. -/
def createDots (dp ip : InodeId) : FsM Unit := do
  addLink dp 1
  let i ← getInode ip
  let ok ← dirlink ip dot i.inum
  if ok = true then
    let d ← getInode dp
    let ok ← dirlink ip dotdot d.inum
    if ok = true then pure () else panic .createDots
  else
    panic .createDots

/-- `if(type == T_DIR)` of `create` with its body. -/
def createDotsIfDir (dp ip : InodeId) (type : Int16) : FsM Unit :=
  if type = T_DIR then createDots dp ip else pure ()

/-- `create` when the name is new. -/
def createNew (dp : InodeId) (name : Name) (type major minor : Int16) : FsM (Option InodeId) := do
  let d ← getInode dp
  let ip ← ialloc d.dev type
  ilock ip
  modifyDinode ip fun di => { di with major := major, minor := minor, nlink := 1 }
  iupdate ip
  createDotsIfDir dp ip type
  let i ← getInode ip
  let ok ← dirlink dp name i.inum
  if ok = true then
    iunlockput dp
    pure (some ip)
  else
    panic .createDirlink

/-- `create`; the inode it returns is locked. -/
def create (path : Path) (type major minor : Int16) : FsM (Option InodeId) := do
  let r ← nameiparent path
  match r with
  | none => pure none
  | some (dp, name) =>
    ilock dp
    let found ← dirlookup dp name
    match found with
    | some (ip, _) => createExisting dp ip type
    | none => createNew dp name type major minor

/-- The inode `sys_open` opens, locked. -/
def openInode (path : Path) (omode : UInt32) : FsM (Option InodeId) :=
  if omode &&& O_CREATE ≠ 0 then
    create path T_FILE 0 0
  else do
    let r ← namei path
    match r with
    | none => pure none
    | some ip =>
      ilock ip
      let i ← getInode ip
      if i.di.type = T_DIR ∧ omode ≠ O_RDONLY then
        iunlockput ip
        pure none
      else
        pure (some ip)

/-- `if((omode & O_TRUNC) && ip->type == T_FILE) itrunc(ip)`. -/
def openTrunc (ip : InodeId) (omode : UInt32) : FsM Unit := do
  let i ← getInode ip
  if omode &&& O_TRUNC ≠ 0 ∧ i.di.type = T_FILE then itrunc ip else pure ()

/-- The fields `sys_open` sets in the new file. -/
def openedFile (x : File) (ip : InodeId) (di : Dinode) (omode : UInt32) : File where
  kind := if di.type = T_DEVICE then .device ip di.major else .inode ip
  ref := x.ref
  readable := omode &&& O_WRONLY = 0
  writable := omode &&& O_WRONLY ≠ 0 ∨ omode &&& O_RDWR ≠ 0
  off := if di.type = T_DEVICE then x.off else 0

/-- `sys_open` once file and descriptor are allocated. -/
def openInstall (ip : InodeId) (omode : UInt32) (f : FileId) (fd : Fin NOFILE) : FsM Int := do
  let i ← getInode ip
  let x ← getFile f
  putFile f (openedFile x ip i.di omode)
  openTrunc ip omode
  iunlock ip
  endWith fd.val

/-- The allocation of file and descriptor in `sys_open`. -/
def openAlloc (ip : InodeId) (omode : UInt32) : FsM Int := do
  let r ← filealloc
  match r with
  | none =>
    iunlockput ip
    endWith (-1)
  | some f =>
    let r ← fdalloc f
    match r with
    | none =>
      fileclose f
      iunlockput ip
      endWith (-1)
    | some fd => openInstall ip omode f fd

def sysOpen (path : Option Path) (omode : UInt32) : FsM Int :=
  match path with
  | none => pure (-1)
  | some path => do
      lift beginOp
      let r ← openInode path omode
      match r with
      | none => endWith (-1)
      | some ip =>
        let i ← getInode ip
        if i.di.type = T_DEVICE ∧ (i.di.major < 0 ∨ i.di.major.toInt ≥ NDEV) then
          iunlockput ip
          endWith (-1)
        else
          openAlloc ip omode

end Xv6.Kernel
