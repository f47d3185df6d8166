import Xv6.Kernel.Inode
/-!
# Directories and path names

The upper half of `fs.c`.
-/

namespace Xv6.Kernel

open Xv6.Lib

def DIRSIZ : Nat := 14

/-- `sizeof(struct dirent)`. -/
def DIRENT : Nat := 16

/-- A name as the kernel keeps it in a `char[DIRSIZ]`: the bytes before the
first NUL. -/
abbrev Name : Type := List UInt8

def Name.byte (name : Name) (j : Nat) : UInt8 := name.getD j 0

structure Dirent where
  inum : UInt16
  name : Fin DIRSIZ → UInt8

namespace Dirent

def byte (de : Dirent) (j : Nat) : UInt8 := if h : j < DIRSIZ then de.name ⟨j, h⟩ else 0

/-- `struct dirent` read from memory. -/
def decode (m : Nat → UInt8) : Dirent where
  inum := UInt16.ofNat ((m 0).toNat + 256 * (m 1).toNat)
  name := fun j => m (2 + j.val)

/-- The bytes of a `struct dirent`. -/
def encode (de : Dirent) (j : Nat) : UInt8 :=
  if j = 0 then UInt8.ofNat de.inum.toNat
  else if j = 1 then UInt8.ofNat (de.inum.toNat / 256)
  else de.byte (j - 2)

/-- `memset(&de, 0, sizeof(de))`. -/
def zero : Dirent where
  inum := 0
  name := fun _ => 0

/-- The entry `dirlink` writes: `strncpy` pads the name with NULs. -/
def entry (name : Name) (inum : Nat) : Dirent where
  inum := UInt16.ofNat inum
  name := fun j => if j.val < name.length then name.byte j.val else 0

end Dirent

/-- `strncmp(p, q, n) == 0`. -/
def strncmpEq (p q : Nat → UInt8) : Nat → Bool
  | 0 => true
  | n + 1 =>
    if p 0 ≠ 0 ∧ p 0 = q 0 then strncmpEq (fun j => p (j + 1)) (fun j => q (j + 1)) n
    else p 0 = q 0

/-- `namecmp(s, t) == 0`. -/
def namecmpEq (p q : Nat → UInt8) : Bool := strncmpEq p q DIRSIZ

def dot : Name := [46]

def dotdot : Name := [46, 46]

/-! ## Directories -/

/-- Read the directory entry at offset `off`; anything but a whole entry is a
panic. -/
def readDirent (dp : InodeId) (off : Nat) (p : Panic) : FsM Dirent := do
  let r ← readi dp (.kernel fun _ => 0) 0 (UInt32.ofNat off) (UInt32.ofNat DIRENT)
  match r with
  | (tot, .kernel m) => if tot = DIRENT then pure (Dirent.decode m) else panic p
  | (_, .user _) => panic p

/-- `writei(dp, 0, (uint64)&de, off, sizeof(de)) != sizeof(de)` is a panic. -/
def writeDirent (dp : InodeId) (off : Nat) (de : Dirent) (p : Panic) : FsM Unit := do
  let r ← writei dp (.kernel de.encode) 0 (UInt32.ofNat off) (UInt32.ofNat DIRENT)
  if r = DIRENT then pure () else panic p

/-- The number of rounds of a loop over the offsets `0, sizeof(de), ..` below
the size. -/
def direntRounds (size : UInt32) : Nat := (size.toNat + DIRENT - 1) / DIRENT

/-- One round of `dirlookup`. -/
def dirlookupRound (dp : InodeId) (name : Name) (n : Nat) : FsM (Option (InodeId × Nat)) := do
  let de ← readDirent dp (n * DIRENT) .dirlookupRead
  if de.inum = 0 then
    pure none
  else if namecmpEq name.byte de.byte = true then
    let i ← getInode dp
    let ip ← iget i.dev de.inum.toNat
    pure (some (ip, n * DIRENT))
  else
    pure none

/-- `dirlookup`; the result is the inode and the offset `*poff`. -/
def dirlookup (dp : InodeId) (name : Name) : FsM (Option (InodeId × Nat)) := do
  let i ← getInode dp
  if i.di.type ≠ T_DIR then
    panic .dirlookupNotDir
  else
    Prog.findRange (dirlookupRound dp name) 0 (direntRounds i.di.size)

/-- One round of `dirlink`'s search for an empty entry. -/
def emptyRound (dp : InodeId) (n : Nat) : FsM (Option Nat) := do
  let de ← readDirent dp (n * DIRENT) .dirlinkRead
  if de.inum = 0 then pure (some n) else pure none

/-- `dirlink`; false for `-1`. -/
def dirlink (dp : InodeId) (name : Name) (inum : Nat) : FsM Bool := do
  let found ← dirlookup dp name
  match found with
  | some (ip, _) =>
    iput ip
    pure false
  | none =>
    let i ← getInode dp
    let slot ← Prog.findRange (emptyRound dp) 0 (direntRounds i.di.size)
    writeDirent dp (slot.getD (direntRounds i.di.size) * DIRENT) (Dirent.entry name inum) .dirlink
    pure true

/-! ## Paths -/

def slash : UInt8 := 47

/-- `skipelem`: the next element, cut to `DIRSIZ` bytes, and what follows it
without leading slashes. -/
def skipelem (path : List UInt8) : Option (Name × List UInt8) :=
  match path.dropWhile (· == slash) with
  | [] => none
  | c :: cs =>
    let s := c :: cs
    some ((s.takeWhile (· != slash)).take DIRSIZ, (s.dropWhile (· != slash)).dropWhile (· == slash))

/-- The loop of `namex`.  The result is the inode, and the last element when
the parent was asked for.  Each round consumes at least one byte. -/
def namexLoop (nameiparent : Bool) : Nat → InodeId → List UInt8 → FsM (Option (InodeId × Name))
  | 0, ip, _ => do
      iput ip
      pure none
  | fuel + 1, ip, path =>
    match skipelem path with
    | none =>
      if nameiparent = true then do
        iput ip
        pure none
      else
        pure (some (ip, []))
    | some (name, rest) => do
        ilock ip
        let i ← getInode ip
        if i.di.type ≠ T_DIR then
          iunlockput ip
          pure none
        else if nameiparent = true ∧ rest = [] then
          iunlock ip
          pure (some (ip, name))
        else
          let next ← dirlookup ip name
          match next with
          | none =>
            iunlockput ip
            pure none
          | some (next, _) =>
            iunlockput ip
            namexLoop nameiparent fuel next rest

def getCwd : FsM (Option InodeId) := Prog.gets fun k => (k.proc k.cur).cwd

/-- A path as `argstr` fetches it from a system call's argument. -/
structure Path where
  bytes : List UInt8
  noNul : 0 ∉ bytes
  short : bytes.length < MAXPATH

/-- Where a walk starts. -/
def namexStart (path : List UInt8) : FsM InodeId := do
  if path.head? = some slash then
    iget ROOTDEV ROOTINO
  else
    let cwd ← getCwd
    match cwd with
    | some ip => idup ip
    | none => panic .kerneltrap

/-- `namex` on the bytes before the NUL, however many. -/
def namexBytes (path : List UInt8) (nameiparent : Bool) : FsM (Option (InodeId × Name)) := do
  let ip ← namexStart path
  namexLoop nameiparent (path.length + 1) ip path

def namex (path : Path) (nameiparent : Bool) : FsM (Option (InodeId × Name)) :=
  namexBytes path.bytes nameiparent

def namei (path : Path) : FsM (Option InodeId) := do
  let r ← namex path false
  pure (r.map Prod.fst)

def nameiparent (path : Path) : FsM (Option (InodeId × Name)) := namex path true

end Xv6.Kernel
