import Xv6.Kernel.Dir
/-!
# Changing a directory, one transaction after the other

`dirlink`, and the lines of `sys_unlink` that concern the directory, each in a
transaction of its own.  `done` keeps what the operations returned.
-/

namespace Xv6.Kernel

open Xv6.Lib

/-- The part of `sys_unlink` that removes an entry: look it up and overwrite it with
zeros. -/
def removeEntry (dp : InodeId) (name : Name) : FsM Bool := do
  let found ← dirlookup dp name
  match found with
  | none => pure false
  | some (ip, off) =>
    writeDirent dp off Dirent.zero .unlinkWritei
    iput ip
    pure true

inductive DirOp where
  | link (name : Name) (inum : Nat)
  | unlink (name : Name)

namespace DirOp

def name : DirOp → Name
  | .link name _ => name
  | .unlink name => name

/-- False for `-1`. -/
def run (dp : InodeId) : DirOp → FsM Bool
  | .link name inum => dirlink dp name inum
  | .unlink name => removeEntry dp name

/-- The operation with the transaction and the lock it needs. -/
def call (dp : InodeId) (op : DirOp) : FsM Bool := do
  lift beginOp
  ilock dp
  let r ← op.run dp
  iunlock dp
  lift endOp
  pure r

end DirOp

structure DirOps where
  sys : Sys
  done : List (DirOp × Bool)

def DirOps.step (dp : InodeId) (s : DirOps) (op : DirOp) : Option DirOps :=
  match op.call dp s.sys with
  | .ok (r, k) => some ⟨k, s.done ++ [(op, r)]⟩
  | .error _ => none

end Xv6.Kernel
