import Xv6.Kernel.Super
import Xv6.Kernel.Vm
/-!
# Blocks and inodes

The lower half of `fs.c`: the free map, the inode cache, the contents of an
inode.  The global superblock, the inode cache, the file table and the process
table are the state on top of the block layer.
-/

namespace Xv6.Kernel

open Xv6.Lib

def NDIRECT : Nat := 12
def NINDIRECT : Nat := BSIZE / 4
def MAXFILE : Nat := NDIRECT + NINDIRECT

def T_DIR : Int16 := 1
def T_FILE : Int16 := 2
def T_DEVICE : Int16 := 3

def IPB : Nat := BSIZE / 64

def BPB : Nat := BSIZE * 8

def Superblock.iblock (sb : Superblock) (inum : Nat) : Nat := inum / IPB + sb.inodestart

def Superblock.bblock (sb : Superblock) (b : Nat) : Nat := b / BPB + sb.bmapstart

/-! ## On-disk inodes -/

/-- `uint addrs[NDIRECT+1]`. -/
abbrev Addrs : Type := Fin (NDIRECT + 1) → UInt32

def Addrs.get (a : Addrs) (n : Nat) : UInt32 := if h : n < NDIRECT + 1 then a ⟨n, h⟩ else 0

def Addrs.set (a : Addrs) (n : Nat) (x : UInt32) : Addrs := fun j => if j.val = n then x else a j

structure Dinode where
  type : Int16
  major : Int16
  minor : Int16
  nlink : Int16
  size : UInt32
  addrs : Addrs

namespace Dinode

/-- `memset(dip, 0, sizeof(*dip)); dip->type = type`. -/
def fresh (type : Int16) : Dinode where
  type := type
  major := 0
  minor := 0
  nlink := 0
  size := 0
  addrs := fun _ => 0

/-- Offset of inode `inum` in its block. -/
def offset (inum : Nat) : Nat := 64 * (inum % IPB)

/-- `struct dinode` at offset `o` of a block. -/
def decode (b : Block) (o : Nat) : Dinode where
  type := (b.u16 o).toInt16
  major := (b.u16 (o + 2)).toInt16
  minor := (b.u16 (o + 4)).toInt16
  nlink := (b.u16 (o + 6)).toInt16
  size := b.u32 (o + 8)
  addrs := fun j => b.u32 (o + 12 + 4 * j.val)

def storeAddrs (a : Addrs) (o : Nat) (b : Block) : Block :=
  (List.range (NDIRECT + 1)).foldl (fun b j => b.setU32 (o + 12 + 4 * j) (a.get j)) b

def store (d : Dinode) (o : Nat) (b : Block) : Block :=
  storeAddrs d.addrs o (((((b.setU16 o d.type.toUInt16).setU16 (o + 2)
    d.major.toUInt16).setU16 (o + 4) d.minor.toUInt16).setU16 (o + 6)
    d.nlink.toUInt16).setU32 (o + 8) d.size)

end Dinode

/-! ## The state of the file system -/

/-- An index into `icache.inode`, the model's `struct inode *`. -/
abbrev InodeId : Type := Fin NINODE

/-- An index into `ftable.file`, the model's `struct file *`. -/
abbrev FileId : Type := Fin NFILE

/-- `struct inode`; `di` is the copy of the disk inode. -/
structure Inode where
  dev : Nat
  inum : Nat
  ref : Int
  lock : Option Nat
  valid : Bool
  di : Dinode

/-- What an open file is of: the `type` of a `struct file` with the fields in
use for that type. -/
inductive FileKind where
  | none
  | inode (ip : InodeId)
  | device (ip : InodeId) (major : Int16)
  deriving DecidableEq

structure File where
  kind : FileKind
  ref : Int
  readable : Bool
  writable : Bool
  off : UInt32

/-- The part of `struct proc` the file system uses.  A process that has exited,
or a slot not in use, has no current directory. -/
structure ProcFiles where
  cwd : Option InodeId
  ofile : Fin NOFILE → Option FileId

/-- The state of the kernel, as the process `cur` sees it. -/
structure Sys where
  blk : Blk
  sb : Superblock
  icache : InodeId → Inode
  ftable : FileId → File
  proc : ProcId → ProcFiles
  cur : ProcId

abbrev FsM (α : Type) : Type := Prog Sys Stop α

namespace Sys

def withBlk (k : Sys) (s : Blk) : Sys := { k with blk := s }

def setInode (k : Sys) (ip : InodeId) (i : Inode) : Sys :=
  { k with icache := Function.update k.icache ip i }

end Sys

def lift {α : Type} (f : BlkM α) : FsM α := Prog.zoom Sys.blk Sys.withBlk f

def getInode (ip : InodeId) : FsM Inode := Prog.gets fun k => k.icache ip

def putInode (ip : InodeId) (i : Inode) : FsM Unit := Prog.modify fun k => k.setInode ip i

def modifyDinode (ip : InodeId) (f : Dinode → Dinode) : FsM Unit :=
  Prog.modify fun k => k.setInode ip { k.icache ip with di := f (k.icache ip).di }

/-! ## The free map -/

/-- The inner loop of `balloc`: the first clear bit among the first `n`. -/
def firstClear (d : Block) (n : Nat) : Option Nat := (List.range n).find? fun bi => !d.bit bi

def bzero (dev bno : Nat) : BlkM Unit := do
  let bp ← bread dev bno
  setData bp Bytes.zero
  logWrite bp
  brelse bp

/-- One round of `balloc`'s outer loop: the free map block of `b`. -/
def ballocRound (sb : Superblock) (dev b : Nat) : BlkM (Option Nat) := do
  let bp ← bread dev (sb.bblock b)
  let d ← bdata bp
  match firstClear d (min BPB (sb.size - b)) with
  | some bi =>
    setData bp (d.setBit bi)
    logWrite bp
    brelse bp
    bzero dev (b + bi)
    pure (some (b + bi))
  | none =>
    brelse bp
    pure none

def balloc (sb : Superblock) (dev : Nat) : BlkM UInt32 := do
  let r ← Prog.findRange (fun q => ballocRound sb dev (q * BPB)) 0 ((sb.size + BPB - 1) / BPB)
  match r with
  | some b => pure (UInt32.ofNat b)
  | none => panic .ballocOutOfBlocks

def bfree (sb : Superblock) (dev b : Nat) : BlkM Unit := do
  let bp ← bread dev (sb.bblock b)
  let d ← bdata bp
  if d.bit (b % BPB) = false then
    panic .freeingFreeBlock
  else
    setData bp (d.clearBit (b % BPB))
    logWrite bp
    brelse bp

/-! ## The inode cache -/

namespace Sys

/-- The entry of `iget`'s loop that is already in use for the inode. -/
def cached (k : Sys) (dev inum : Nat) : Option InodeId :=
  (List.finRange NINODE).find? fun ip =>
    0 < (k.icache ip).ref && (k.icache ip).dev = dev && (k.icache ip).inum = inum

def emptyEntry (k : Sys) : Option InodeId :=
  (List.finRange NINODE).find? fun ip => (k.icache ip).ref = 0

end Sys

def iget (dev inum : Nat) : FsM InodeId := do
  let k ← Prog.get
  match k.cached dev inum with
  | some ip =>
    putInode ip { k.icache ip with ref := (k.icache ip).ref + 1 }
    pure ip
  | none =>
    match k.emptyEntry with
    | some ip =>
      putInode ip { k.icache ip with dev := dev, inum := inum, ref := 1, valid := false }
      pure ip
    | none => panic .igetNoInodes

/-- One round of `ialloc`. -/
def iallocRound (sb : Superblock) (dev : Nat) (type : Int16) (inum : Nat) : BlkM (Option Nat) := do
  let bp ← bread dev (sb.iblock inum)
  let d ← bdata bp
  if (Dinode.decode d (Dinode.offset inum)).type = 0 then
    setData bp ((Dinode.fresh type).store (Dinode.offset inum) d)
    logWrite bp
    brelse bp
    pure (some inum)
  else
    brelse bp
    pure none

def ialloc (dev : Nat) (type : Int16) : FsM InodeId := do
  let sb ← Prog.gets Sys.sb
  let r ← lift (Prog.findRange (iallocRound sb dev type) 1 (sb.ninodes - 1))
  match r with
  | some inum => iget dev inum
  | none => panic .iallocNoInodes

/-- The block writing of `iupdate`. -/
def storeDinode (sb : Superblock) (dev inum : Nat) (di : Dinode) : BlkM Unit := do
  let bp ← bread dev (sb.iblock inum)
  let d ← bdata bp
  setData bp (di.store (Dinode.offset inum) d)
  logWrite bp
  brelse bp

def iupdate (ip : InodeId) : FsM Unit := do
  let sb ← Prog.gets Sys.sb
  let i ← getInode ip
  lift (storeDinode sb i.dev i.inum i.di)

def idup (ip : InodeId) : FsM InodeId := do
  let i ← getInode ip
  putInode ip { i with ref := i.ref + 1 }
  pure ip

def acquireInode (ip : InodeId) : FsM Unit := do
  let i ← getInode ip
  let pid ← Prog.gets fun k => k.blk.pid
  if i.lock = none then
    putInode ip { i with lock := some pid }
  else
    Prog.stop .sleep

def releaseInode (ip : InodeId) : FsM Unit := do
  let i ← getInode ip
  putInode ip { i with lock := none }

def loadDinode (sb : Superblock) (dev inum : Nat) : BlkM Dinode := do
  let bp ← bread dev (sb.iblock inum)
  let d ← bdata bp
  brelse bp
  pure (Dinode.decode d (Dinode.offset inum))

def ilock (ip : InodeId) : FsM Unit := do
  let i ← getInode ip
  if i.ref < 1 then
    panic .ilock
  else
    acquireInode ip
    if i.valid = false then
      let sb ← Prog.gets Sys.sb
      let di ← lift (loadDinode sb i.dev i.inum)
      let i ← getInode ip
      putInode ip { i with valid := true, di := di }
      if di.type = 0 then panic .ilockNoType else pure ()
    else
      pure ()

def iunlock (ip : InodeId) : FsM Unit := do
  let k ← Prog.get
  if (k.icache ip).lock ≠ some k.blk.pid ∨ (k.icache ip).ref < 1 then
    panic .iunlock
  else
    releaseInode ip

/-! ## The blocks of an inode -/

def setAddr (ip : InodeId) (n : Nat) (addr : UInt32) : FsM Unit :=
  modifyDinode ip fun di => { di with addrs := di.addrs.set n addr }

/-- `if((addr = ip->addrs[n]) == 0) ip->addrs[n] = addr = balloc(ip->dev)`. -/
def addrOrAlloc (ip : InodeId) (n : Nat) : FsM UInt32 := do
  let i ← getInode ip
  if i.di.addrs.get n = 0 then
    let sb ← Prog.gets Sys.sb
    let addr ← lift (balloc sb i.dev)
    setAddr ip n addr
    pure addr
  else
    pure (i.di.addrs.get n)

/-- The second half of `bmap`: entry `n` of the indirect block `addr`. -/
def indirectEntry (sb : Superblock) (dev addr n : Nat) : BlkM UInt32 := do
  let bp ← bread dev addr
  let a ← bdata bp
  if a.u32 (4 * n) = 0 then
    let fresh ← balloc sb dev
    let a ← bdata bp
    setData bp (a.setU32 (4 * n) fresh)
    logWrite bp
    brelse bp
    pure fresh
  else
    brelse bp
    pure (a.u32 (4 * n))

def bmap (ip : InodeId) (bn : Nat) : FsM UInt32 := do
  if bn < NDIRECT then
    addrOrAlloc ip bn
  else if bn - NDIRECT < NINDIRECT then
    let addr ← addrOrAlloc ip NDIRECT
    let sb ← Prog.gets Sys.sb
    let i ← getInode ip
    lift (indirectEntry sb i.dev addr.toNat (bn - NDIRECT))
  else
    panic .bmapOutOfRange

/-- One round of `itrunc`'s first loop. -/
def freeDirect (ip : InodeId) (n : Nat) : FsM Unit := do
  let i ← getInode ip
  if i.di.addrs.get n = 0 then
    pure ()
  else
    let sb ← Prog.gets Sys.sb
    lift (bfree sb i.dev (i.di.addrs.get n).toNat)
    setAddr ip n 0

/-- One round of `itrunc`'s second loop. -/
def freeEntry (sb : Superblock) (dev : Nat) (bp : BufId) (j : Nat) : BlkM Unit := do
  let a ← bdata bp
  if a.u32 (4 * j) = 0 then
    pure ()
  else
    bfree sb dev (a.u32 (4 * j)).toNat

def freeIndirect (sb : Superblock) (dev addr : Nat) : BlkM Unit := do
  let bp ← bread dev addr
  Prog.forRange (freeEntry sb dev bp) 0 NINDIRECT
  brelse bp
  bfree sb dev addr

/-- `if(ip->addrs[NDIRECT])` with its body. -/
def dropIndirect (ip : InodeId) : FsM Unit := do
  let i ← getInode ip
  if i.di.addrs.get NDIRECT = 0 then
    pure ()
  else
    let sb ← Prog.gets Sys.sb
    lift (freeIndirect sb i.dev (i.di.addrs.get NDIRECT).toNat)
    setAddr ip NDIRECT 0

def setSize (ip : InodeId) (size : UInt32) : FsM Unit :=
  modifyDinode ip fun di => { di with size := size }

def itrunc (ip : InodeId) : FsM Unit := do
  Prog.forRange (freeDirect ip) 0 NDIRECT
  dropIndirect ip
  setSize ip 0
  iupdate ip

/-- The part of `iput` that truncates and frees an inode. -/
def ifree (ip : InodeId) : FsM Unit := do
  acquireInode ip
  itrunc ip
  modifyDinode ip fun di => { di with type := 0 }
  iupdate ip
  let i ← getInode ip
  putInode ip { i with valid := false }
  releaseInode ip

/-- `iput`'s test whether the inode has neither links nor other references. -/
def ifreeIfLast (ip : InodeId) : FsM Unit := do
  let i ← getInode ip
  if i.ref = 1 ∧ i.valid = true ∧ i.di.nlink = 0 then ifree ip else pure ()

def iput (ip : InodeId) : FsM Unit := do
  ifreeIfLast ip
  let i ← getInode ip
  putInode ip { i with ref := i.ref - 1 }

def iunlockput (ip : InodeId) : FsM Unit := do
  iunlock ip
  iput ip

/-! ## Reading and writing

Once the tests at the start have passed, no sum of an offset and a length
exceeds the size of the file (`readi`) or `MAXFILE*BSIZE` (`writei`), so the
loops count in natural numbers.  Each round but the last moves at least one
byte. -/

def readiLoop (ip : InodeId) (n : Nat) : Nat → Mem → Nat → Nat → Nat → FsM (Nat × Mem)
  | 0, mem, _, _, tot => pure (tot, mem)
  | fuel + 1, mem, dst, off, tot =>
    if tot < n then do
      let i ← getInode ip
      let addr ← bmap ip (off / BSIZE)
      let bp ← lift (bread i.dev addr.toNat)
      let m := min (n - tot) (BSIZE - off % BSIZE)
      let d ← lift (bdata bp)
      let r := eitherCopyout mem dst (fun j => d.get (off % BSIZE + j)) m
      lift (brelse bp)
      if r.2 = true then
        readiLoop ip n fuel r.1 (dst + m) (off + m) (tot + m)
      else
        pure (tot, r.1)
    else
      pure (tot, mem)

/-- `readi`; the result is the count and the memory it copied to. -/
def readi (ip : InodeId) (mem : Mem) (dst : Nat) (off n : UInt32) : FsM (Nat × Mem) := do
  let i ← getInode ip
  if off > i.di.size ∨ off + n < off then
    pure (0, mem)
  else
    let n := if off + n > i.di.size then i.di.size - off else n
    readiLoop ip n.toNat n.toNat mem dst off.toNat 0

/-- The body of `writei`'s loop for a piece of `m` bytes at offset `o` of block
`addr`; false when the copy faulted. -/
def writePiece (dev addr : Nat) (mem : Mem) (src o m : Nat) : BlkM Bool := do
  let bp ← bread dev addr
  let d ← bdata bp
  setData bp (eitherCopyin mem d o src m).1
  if (eitherCopyin mem d o src m).2 = true then
    logWrite bp
    brelse bp
    pure true
  else
    brelse bp
    pure false

/-- The loop of `writei`; the result is the offset it got to. -/
def writeiLoop (ip : InodeId) (mem : Mem) (n : Nat) : Nat → Nat → Nat → Nat → FsM Nat
  | 0, _, off, _ => pure off
  | fuel + 1, src, off, tot =>
    if tot < n then do
      let i ← getInode ip
      let addr ← bmap ip (off / BSIZE)
      let m := min (n - tot) (BSIZE - off % BSIZE)
      let ok ← lift (writePiece i.dev addr.toNat mem src (off % BSIZE) m)
      if ok = true then
        writeiLoop ip mem n fuel (src + m) (off + m) (tot + m)
      else
        pure off
    else
      pure off

/-- `if(n > 0)` at the end of `writei`, with its body. -/
def writeBack (ip : InodeId) (n off : Nat) : FsM Unit := do
  let i ← getInode ip
  if n = 0 then
    pure ()
  else if off > i.di.size.toNat then
    setSize ip (UInt32.ofNat off)
    iupdate ip
  else
    iupdate ip

/-- `writei`: `-1`, or `n` whether or not all of it was copied. -/
def writei (ip : InodeId) (mem : Mem) (src : Nat) (off n : UInt32) : FsM Int := do
  let i ← getInode ip
  if off > i.di.size ∨ off + n < off then
    pure (-1)
  else if (off + n).toNat > MAXFILE * BSIZE then
    pure (-1)
  else
    let off' ← writeiLoop ip mem n.toNat n.toNat src off.toNat 0
    writeBack ip n.toNat off'
    pure n.toNat

end Xv6.Kernel
