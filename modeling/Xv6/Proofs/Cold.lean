import Xv6.Proofs.Readi
import Xv6.Proofs.Recovery
/-!
# A disk before anything is cached

What a disk holds, read block by block, and the block layer over it when the
log is empty and no block is in the cache yet.
-/

namespace Xv6.Kernel

open Xv6.Lib
open Blk

variable {sb : Superblock} {i k b : Nat}

/-- What the file system code finds on a disk. -/
def FS.ofDisk (sb : Superblock) (disk : Nat → Block) : FS where
  ino := fun i => Dinode.decode (disk (sb.iblock i)) (Dinode.offset i)
  used := fun b => (disk (sb.bblock b)).bit (b % BPB)
  data := disk
  stale := noStale

theorem Reads.ofDisk (sb : Superblock) (disk : Nat → Block) :
    Reads sb disk (FS.ofDisk sb disk) where
  ino := fun _ _ => rfl
  used := fun _ _ => rfl
  data := fun _ _ => rfl
  stale := fun _ hb => hb.elim

def Superblock.inOp (sb : Superblock) : Log where
  start := sb.logstart
  size := sb.nlog
  outstanding := 1
  committing := false
  dev := ROOTDEV
  lh := []

/-- The block layer in the first system call after the start. -/
def Blk.cold (pid : Nat) (sb : Superblock) (disk : Nat → Block) : Blk :=
  (started pid disk ROOTDEV sb.logstart sb.nlog).withLog sb.inOp

theorem Blk.Holds.cold (hl : Layout sb) (pid : Nat) (disk : Nat → Block) :
    (Blk.cold pid sb disk).Holds sb (FS.ofDisk sb disk) [] where
  layout := hl
  start := rfl
  size := rfl
  dev := rfl
  view := by
    have hat : (started pid disk ROOTDEV sb.logstart sb.nlog).At disk noStale [] noExtra [] :=
      started_at pid disk (by decide)
    refine ⟨disk, ⟨hat.setLog rfl, ?_⟩, Reads.ofDisk sb disk⟩
    refine ⟨⟨?_, ?_⟩, List.nodup_nil, ?_, ?_, fun b _ hb => hb⟩
    · exact hl.nlog.1
    · intro b hb
      cases hb
    · change 0 < NBUF
      decide
    · intro b hb
      cases hb

/-! ## A small disk

Inode 1 is the root directory with an entry for inode 2, a file of thirty blocks:
twelve direct ones and eighteen through its indirect block. -/

def smallSb : Superblock where
  magic := 0x10203040
  size := 120
  nblocks := 86
  ninodes := 3
  nlog := LOGSIZE
  logstart := 2
  inodestart := 32
  bmapstart := 33

def smallRoot : Dinode where
  type := T_DIR
  major := 0
  minor := 0
  nlink := 1
  size := 48
  addrs := fun j => if j.val = 0 then 34 else 0

def smallFile : Dinode where
  type := T_FILE
  major := 0
  minor := 0
  nlink := 1
  size := 30720
  addrs := fun j => UInt32.ofNat (35 + j.val)

def smallEntries : List UInt8 :=
  [1, 0, 46] ++ List.replicate 13 0 ++ [1, 0, 46, 46] ++ List.replicate 12 0 ++ [2, 0, 102]

def smallDisk (b : Nat) : Block :=
  match b with
  | 32 => smallFile.store (Dinode.offset 2) (smallRoot.store (Dinode.offset 1) Bytes.zero)
  | 33 => fun j => if j.val < 8 then 255 else if j.val = 8 then 3 else 0
  | 34 => fun j => smallEntries.getD j.val 0
  | 47 => fun j => if j.val % 4 = 0 ∧ j.val < 72 then UInt8.ofNat (48 + j.val / 4) else 0
  | _ => Bytes.zero

def smallFS : FS := FS.ofDisk smallSb smallDisk

theorem smallLayout : Layout smallSb where
  nlog := by decide
  inodes := by decide
  bitmap := by decide
  data := by decide
  size := by decide
  ninodes := by decide

theorem smallFS_live (h : smallFS.live smallSb i) : i = 1 ∨ i = 2 := by
  obtain ⟨h1, h2, _⟩ := h
  change i < 3 at h2
  omega

theorem smallFS_file : smallFS.ino 2 = smallFile :=
  Dinode.decode_store (Dinode.offset_le 2)

theorem smallFS_root : smallFS.ino 1 = smallRoot := by
  have hroot : Dinode.decode (smallRoot.store (Dinode.offset 1) Bytes.zero) (Dinode.offset 1) =
      smallRoot := Dinode.decode_store (Dinode.offset_le 1)
  rw [← hroot]
  apply Dinode.decode_congr
  intro j hj
  have h1 : Dinode.offset 1 = 64 := rfl
  have h2 : Dinode.offset 2 = 128 := rfl
  exact Dinode.get_store_ne (by omega)

theorem smallFS_slot_root : ∀ k, k < NSLOT → smallFS.slot 1 k = if k = 0 then 34 else 0 := by
  decide +kernel

theorem smallFS_slot_file : ∀ k, k < NSLOT → smallFS.slot 2 k = if k ≤ 30 then 35 + k else 0 := by
  decide +kernel

theorem smallFS_used : ∀ b, b < smallSb.size → smallFS.used b = decide (b < 66) := by
  decide +kernel

theorem smallFS_freeCount : smallSb.freeCount smallFS = 54 := by
  decide +kernel

theorem smallFS_live_root : smallFS.live smallSb 1 := by
  refine ⟨by decide, by decide, ?_⟩
  rw [smallFS_root]
  decide

theorem smallFS_live_file : smallFS.live smallSb 2 := by
  refine ⟨by decide, by decide, ?_⟩
  rw [smallFS_file]
  decide

theorem smallFS_owner (h : smallFS.owner smallSb (i, k) = some b) :
    i = 1 ∧ k = 0 ∧ b = 34 ∨ i = 2 ∧ k ≤ 30 ∧ b = 35 + k := by
  unfold FS.owner at h
  split at h
  · rename_i hc
    obtain ⟨hlive, hk, h0⟩ := hc
    have hb := Option.some.inj h
    simp only at hlive hk h0 hb
    rcases smallFS_live hlive with rfl | rfl
    · rw [smallFS_slot_root k hk] at h0 hb
      split at hb
      · exact .inl ⟨rfl, by assumption, hb.symm⟩
      · rename_i hne
        exact absurd (if_neg hne) h0
    · rw [smallFS_slot_file k hk] at h0 hb
      split at hb
      · exact .inr ⟨rfl, by assumption, hb.symm⟩
      · rename_i hne
        exact absurd (if_neg hne) h0
  · cases h

theorem smallFS_own : Own smallSb smallFS where
  alloc :=
    { inj := by
        rintro ⟨i, k⟩ ⟨j, l⟩ b hi hj
        rcases smallFS_owner hi with ⟨rfl, rfl, rfl⟩ | ⟨rfl, hk, rfl⟩
        · rcases smallFS_owner hj with ⟨rfl, rfl, _⟩ | ⟨rfl, hl, he⟩
          · rfl
          · omega
        · rcases smallFS_owner hj with ⟨rfl, rfl, he⟩ | ⟨rfl, hl, he⟩
          · omega
          · rw [show l = k by omega]
      used_iff := by
        intro b
        have hdata : smallSb.datastart = 34 := rfl
        have hsize : smallSb.size = 120 := rfl
        constructor
        · rintro ⟨hb, hu⟩
          rw [smallFS_used b hb, decide_eq_true_eq] at hu
          rcases Nat.lt_trichotomy b 34 with hlt | rfl | hgt
          · exact .inl (by omega)
          · refine .inr ⟨(1, 0), ?_⟩
            have hs := smallFS_slot_root 0 (by decide)
            rw [FS.owner_some smallFS_live_root (by decide) (by rw [hs]; decide), hs]
            rfl
          have hk : b - 35 < NSLOT := by
            have : NSLOT = 269 := rfl
            omega
          have hs := smallFS_slot_file (b - 35) hk
          rw [if_pos (by omega), show 35 + (b - 35) = b by omega] at hs
          refine .inr ⟨(2, b - 35), ?_⟩
          rw [FS.owner_some smallFS_live_file hk (by omega), hs]
        · rintro (hb | ⟨⟨i, k⟩, hown⟩)
          · have hb' : b < smallSb.size := by omega
            exact ⟨hb', by rw [smallFS_used b hb']; simp; omega⟩
          have hb' : b < smallSb.size ∧ b < 66 := by
            rcases smallFS_owner hown with ⟨_, _, rfl⟩ | ⟨_, _, rfl⟩
            · omega
            · omega
          exact ⟨hb'.1, by rw [smallFS_used b hb'.1, decide_eq_true hb'.2]⟩
      apart := by
        rintro ⟨i, k⟩ b hown hb
        have hdata : smallSb.datastart = 34 := rfl
        rcases smallFS_owner hown with ⟨_, _, rfl⟩ | ⟨_, _, rfl⟩
        · omega
        · omega }
  clean := fun _ _ _ hs => hs

theorem smallFS_mapped (hi : smallFS.live smallSb i) : Mapped smallFS i := by
  rcases smallFS_live hi with rfl | rfl
  · refine ⟨?_, ?_⟩
    · rw [smallFS_root]
      decide
    intro n hn
    rw [smallFS_root] at hn
    have hn' : n * 1024 < 48 := hn
    have h0 : n = 0 := by omega
    rw [h0, smallFS_slot_root _ (by decide)]
    decide
  · refine ⟨?_, ?_⟩
    · rw [smallFS_file]
      decide
    intro n hn
    rw [smallFS_file] at hn
    have hn' : n * 1024 < 30720 := hn
    have hmax : n < MAXFILE := by
      have : MAXFILE = 268 := rfl
      omega
    have hle : fileSlot n ≤ 30 := by
      have : NDIRECT = 12 := rfl
      unfold fileSlot
      split
      · omega
      · omega
    rw [smallFS_slot_file _ (fileSlot_lt hmax), if_pos hle]
    omega

/-- A kernel in a system call on the small disk, with the file in entry 0 of the
inode cache. -/
def smallSys : Sys where
  blk := Blk.cold 1 smallSb smallDisk
  sb := smallSb
  icache := fun ip =>
    if ip.val = 0 then
      { dev := ROOTDEV, inum := 2, ref := 1, lock := some 1, valid := true, di := smallFile }
    else
      { dev := 0, inum := 0, ref := 0, lock := none, valid := false, di := Dinode.fresh 0 }
  ftable := fun _ =>
    { kind := .none, ref := 0, readable := false, writable := false, off := 0 }
  proc := fun _ => { cwd := none, ofile := fun _ => none }
  cur := ⟨0, NPROC_pos⟩

def smallIp : InodeId := ⟨0, by decide⟩

end Xv6.Kernel
