import Xv6.Kernel.Inode
import Xv6.Proofs.Block
/-!
# The on-disk format

The blocks of a disk read as inodes, a free map and data blocks.  The record
`FS` is that reading; `Reads` ties it to block contents, and each kind of block
update is a named update of the record.
-/

namespace Xv6.Kernel

open Xv6.Lib Function List

variable {b i : Nat} {sb : Superblock}

/-! ## Inodes in their block -/

theorem Addrs.get_val (a : Addrs) (j : Fin (NDIRECT + 1)) : a.get j.val = a j :=
  dif_pos j.isLt

theorem Addrs.get_set {a : Addrs} {n : Nat} (hn : n < NDIRECT + 1) (x : UInt32) (m : Nat) :
    (a.set n x).get m = if m = n then x else a.get m := by
  unfold Addrs.get Addrs.set
  by_cases hm : m < NDIRECT + 1
  · simp only [hm, dite_true]
  · have hmn : m ≠ n := fun e => hm (e ▸ hn)
    simp only [hm, dite_false, hmn, if_false]

namespace Dinode
variable {d e : Dinode} {b c : Block} {o k p : Nat} {a : Addrs}

private theorem get_foldl_ne (f : Nat → UInt32) (o : Nat) (b : Block) (n : Nat)
    (h : i < o + 12 ∨ o + 12 + 4 * n ≤ i) :
    ((List.range n).foldl (fun b j => b.setU32 (o + 12 + 4 * j) (f j)) b).get i = b.get i := by
  induction n with
  | zero => rfl
  | succ n ih =>
    rw [range_succ, foldl_append, foldl_cons, foldl_nil, Bytes.get_setU32_ne (by omega)]
    exact ih (by omega)

private theorem u32_foldl (f : Nat → UInt32) (o : Nat) (b : Block) (n : Nat)
    (hk : k < n) (hn : o + 12 + 4 * n ≤ BSIZE) :
    ((List.range n).foldl (fun b j => b.setU32 (o + 12 + 4 * j) (f j)) b).u32 (o + 12 + 4 * k) =
      f k := by
  induction n with
  | zero => omega
  | succ n ih =>
    rw [range_succ, foldl_append, foldl_cons, foldl_nil]
    rcases eq_or_ne k n with rfl | hkn
    · exact Bytes.u32_setU32 (by omega)
    · rw [Bytes.u32_setU32_ne (by omega)]
      exact ih (by omega) (by omega)

theorem get_storeAddrs_ne (h : i < o + 12 ∨ o + 64 ≤ i) : (storeAddrs a o b).get i = b.get i :=
  get_foldl_ne a.get o b _ (by simp only [NDIRECT]; omega)

theorem get_store_ne (h : i < o ∨ o + 64 ≤ i) : (d.store o b).get i = b.get i := by
  unfold store
  rw [get_storeAddrs_ne (by omega), Bytes.get_setU32_ne (by omega),
    Bytes.get_setU16_ne (by omega), Bytes.get_setU16_ne (by omega),
    Bytes.get_setU16_ne (by omega), Bytes.get_setU16_ne (by omega)]

private theorem u16_storeAddrs (h : p + 2 ≤ o + 12) : (storeAddrs a o b).u16 p = b.u16 p :=
  Bytes.u16_congr fun _ _ => get_storeAddrs_ne (by omega)

private theorem u32_storeAddrs (h : p + 4 ≤ o + 12) : (storeAddrs a o b).u32 p = b.u32 p :=
  Bytes.u32_congr fun _ _ => get_storeAddrs_ne (by omega)

theorem ext (ht : d.type = e.type) (hma : d.major = e.major)
    (hmi : d.minor = e.minor) (hn : d.nlink = e.nlink) (hs : d.size = e.size)
    (ha : d.addrs = e.addrs) : d = e := by
  cases d
  cases e
  simp_all

theorem decode_store (h : o + 64 ≤ BSIZE) : decode (d.store o b) o = d := by
  unfold decode store
  apply ext
  · simp only
    rw [u16_storeAddrs (by omega), Bytes.u16_setU32_ne (by omega), Bytes.u16_setU16_ne (by omega),
      Bytes.u16_setU16_ne (by omega), Bytes.u16_setU16_ne (by omega), Bytes.u16_setU16 (by omega)]
    rfl
  · simp only
    rw [u16_storeAddrs (by omega), Bytes.u16_setU32_ne (by omega), Bytes.u16_setU16_ne (by omega),
      Bytes.u16_setU16_ne (by omega), Bytes.u16_setU16 (by omega)]
    rfl
  · simp only
    rw [u16_storeAddrs (by omega), Bytes.u16_setU32_ne (by omega), Bytes.u16_setU16_ne (by omega),
      Bytes.u16_setU16 (by omega)]
    rfl
  · simp only
    rw [u16_storeAddrs (by omega), Bytes.u16_setU32_ne (by omega), Bytes.u16_setU16 (by omega)]
    rfl
  · simp only
    rw [u32_storeAddrs (by omega), Bytes.u32_setU32 (by omega)]
  funext j
  have hj : j.val < 13 := j.isLt
  simp only
  unfold storeAddrs
  rw [u32_foldl d.addrs.get o _ _ j.isLt (by simp only [NDIRECT]; omega)]
  exact d.addrs.get_val j

theorem decode_congr (h : ∀ i, i < 64 → b.get (o + i) = c.get (o + i)) :
    decode b o = decode c o := by
  have h16 : ∀ p, p + 2 ≤ 64 → b.u16 (o + p) = c.u16 (o + p) := by
    intro p hp
    apply Bytes.u16_congr
    intro i hi
    rw [Nat.add_assoc]
    exact h _ (by omega)
  have h32 : ∀ p, p + 4 ≤ 64 → b.u32 (o + p) = c.u32 (o + p) := by
    intro p hp
    apply Bytes.u32_congr
    intro i hi
    rw [Nat.add_assoc]
    exact h _ (by omega)
  unfold decode
  apply ext
  · exact congrArg UInt16.toInt16 (h16 0 (by omega))
  · exact congrArg UInt16.toInt16 (h16 2 (by omega))
  · exact congrArg UInt16.toInt16 (h16 4 (by omega))
  · exact congrArg UInt16.toInt16 (h16 6 (by omega))
  · exact h32 8 (by omega)
  funext j
  have hj : j.val < 13 := j.isLt
  simp only
  rw [Nat.add_assoc]
  exact h32 _ (by omega)
end Dinode

/-! ## The layout of a disk -/

def Superblock.datastart (sb : Superblock) : Nat := sb.bmapstart + sb.size / BPB + 1

/-- The regions a superblock describes follow each other as in `mkfs`, a
recorded transaction fits the buffer cache, and an inode number fits the
`ushort` of a directory entry. -/
structure Layout (sb : Superblock) : Prop where
  nlog : 1 ≤ sb.nlog ∧ sb.nlog ≤ LOGSIZE
  inodes : sb.logstart + sb.nlog ≤ sb.inodestart
  bitmap : sb.inodestart + sb.ninodes / IPB + 1 ≤ sb.bmapstart
  data : sb.datastart ≤ sb.size
  size : sb.size < 2 ^ 31
  ninodes : sb.ninodes ≤ 2 ^ 16

def Superblock.inLog (sb : Superblock) (b : Nat) : Prop :=
  sb.logstart ≤ b ∧ b < sb.logstart + sb.nlog

def Superblock.isData (sb : Superblock) (b : Nat) : Prop := sb.datastart ≤ b ∧ b < sb.size

theorem IPB_eq : IPB = 16 := rfl

theorem BPB_eq : BPB = 8192 := rfl

namespace Layout

theorem iblock_lt (h : Layout sb) (hi : i < sb.ninodes) :
    sb.inodestart ≤ sb.iblock i ∧ sb.iblock i < sb.bmapstart := by
  have hle : i / IPB ≤ sb.ninodes / IPB := Nat.div_le_div_right (Nat.le_of_lt hi)
  have hb := h.bitmap
  unfold Superblock.iblock
  rw [IPB_eq] at *
  omega

theorem bblock_lt (hb : b < sb.size) : sb.bmapstart ≤ sb.bblock b ∧ sb.bblock b < sb.datastart := by
  have hle : b / BPB ≤ sb.size / BPB := Nat.div_le_div_right (Nat.le_of_lt hb)
  unfold Superblock.bblock Superblock.datastart
  rw [BPB_eq] at *
  omega

theorem bmapstart_lt : sb.bmapstart < sb.datastart := by
  unfold Superblock.datastart
  rw [BPB_eq]
  omega

theorem not_inLog (h : Layout sb) (hb : sb.inodestart ≤ b) : ¬sb.inLog b := by
  rintro ⟨_, hlt⟩
  have := h.inodes
  omega

theorem inodestart_le (h : Layout sb) : sb.inodestart ≤ sb.bmapstart := by
  have hb := h.bitmap
  rw [IPB_eq] at hb
  omega

theorem small (h : Layout sb) (hb : b < sb.size) : b < 2 ^ 32 := by
  have := h.size
  omega

end Layout

theorem Dinode.offset_le (i : Nat) : Dinode.offset i + 64 ≤ BSIZE := by
  have h : i % 16 < 16 := Nat.mod_lt _ (by decide)
  change 64 * (i % 16) + 64 ≤ 1024
  omega

/-! ## Reading a disk -/

/-- What the file system code keeps in the blocks outside the log: inodes, the
free map and data blocks.  `stale` are the data blocks of which the cache may
hold a copy that differs from the disk. -/
structure FS where
  ino : Nat → Dinode
  used : Nat → Bool
  data : Nat → Block
  stale : Nat → Prop

namespace FS

def setIno (fs : FS) (i : Nat) (di : Dinode) : FS := { fs with ino := update fs.ino i di }

def setUsed (fs : FS) (b : Nat) (x : Bool) : FS := { fs with used := update fs.used b x }

def setBlock (fs : FS) (b : Nat) (d : Block) : FS :=
  { fs with data := update fs.data b d, stale := without fs.stale b }

def taint (fs : FS) (b : Nat) : FS := { fs with stale := fun c => fs.stale c ∨ c = b }

def alloc (fs : FS) (b : Nat) : FS := (fs.setUsed b true).setBlock b Bytes.zero

end FS

/-- The contents `v` are those of the record. -/
structure Reads (sb : Superblock) (v : Nat → Block) (fs : FS) : Prop where
  ino : ∀ i, i < sb.ninodes → Dinode.decode (v (sb.iblock i)) (Dinode.offset i) = fs.ino i
  used : ∀ b, b < sb.size → (v (sb.bblock b)).bit (b % BPB) = fs.used b
  data : ∀ b, sb.isData b → v b = fs.data b
  stale : ∀ b, fs.stale b → sb.isData b

namespace Reads

variable {v w : Nat → Block} {fs : FS}

section

variable (h : Reads sb v fs) {d : Block} {x : Bool}
include h

theorem congr (hl : Layout sb) (hw : ∀ b, sb.inodestart ≤ b → w b = v b) : Reads sb w fs where
  ino := by
    intro i hi
    rw [hw _ (hl.iblock_lt hi).1]
    exact h.ino i hi
  used := by
    intro b hb
    have hle := hl.inodestart_le
    rw [hw _ (Nat.le_trans hle (Layout.bblock_lt hb).1)]
    exact h.used b hb
  data := by
    intro b hb
    have hlt : sb.bmapstart < sb.datastart := Layout.bmapstart_lt
    have hle := hl.inodestart_le
    have hge : sb.datastart ≤ b := hb.1
    rw [hw b (by omega)]
    exact h.data b hb
  stale := h.stale

theorem setIno (hl : Layout sb) (hi : i < sb.ninodes) (di : Dinode) :
    Reads sb (update v (sb.iblock i) (di.store (Dinode.offset i) (v (sb.iblock i))))
      (fs.setIno i di) where
  ino := by
    intro j hj
    rcases eq_or_ne j i with rfl | hji
    · rw [update_self, Dinode.decode_store (Dinode.offset_le j)]
      exact (update_self j di fs.ino).symm
    have hino : (fs.setIno i di).ino j = fs.ino j := update_of_ne hji _ _
    rw [hino, ← h.ino j hj]
    by_cases hb : sb.iblock j = sb.iblock i
    · rw [hb, update_self]
      have hoff : Dinode.offset j + 64 ≤ Dinode.offset i ∨
          Dinode.offset i + 64 ≤ Dinode.offset j := by
        unfold Superblock.iblock at hb
        unfold Dinode.offset
        have hdiv : j / IPB = i / IPB := by omega
        have hmod : j % IPB ≠ i % IPB := by
          intro he
          apply hji
          rw [← Nat.div_add_mod j IPB, ← Nat.div_add_mod i IPB, hdiv, he]
        omega
      apply Dinode.decode_congr
      intro k hk
      exact Dinode.get_store_ne (by omega)
    · rw [update_of_ne hb]
  used := by
    intro b hb
    have hlt := (hl.iblock_lt hi).2
    have hge := (Layout.bblock_lt hb).1
    rw [update_of_ne (by omega)]
    exact h.used b hb
  data := by
    intro b hb
    have hlt := (hl.iblock_lt hi).2
    have hst : sb.bmapstart < sb.datastart := Layout.bmapstart_lt
    have hge : sb.datastart ≤ b := hb.1
    rw [update_of_ne (by omega)]
    exact h.data b hb
  stale := h.stale

theorem setUsed (hl : Layout sb) (hb : b < sb.size)
    (hd : ∀ j, d.bit j = if j = b % BPB then x else (v (sb.bblock b)).bit j) :
    Reads sb (update v (sb.bblock b) d) (fs.setUsed b x) where
  ino := by
    intro i hi
    have hlt := (hl.iblock_lt hi).2
    have hge := (Layout.bblock_lt hb).1
    rw [update_of_ne (by omega)]
    exact h.ino i hi
  used := by
    intro c hc
    rcases eq_or_ne c b with rfl | hcb
    · rw [update_self, hd, if_pos rfl]
      exact (update_self c x fs.used).symm
    have hused : (fs.setUsed b x).used c = fs.used c := update_of_ne hcb _ _
    rw [hused, ← h.used c hc]
    by_cases hbb : sb.bblock c = sb.bblock b
    · have hmod : c % BPB ≠ b % BPB := by
        intro he
        apply hcb
        unfold Superblock.bblock at hbb
        rw [← Nat.div_add_mod c BPB, ← Nat.div_add_mod b BPB, he]
        have hdiv : c / BPB = b / BPB := by omega
        rw [hdiv]
      rw [hbb, update_self, hd, if_neg hmod]
    · rw [update_of_ne hbb]
  data := by
    intro c hc
    have hlt := (Layout.bblock_lt hb).2
    have hge : sb.datastart ≤ c := hc.1
    rw [update_of_ne (by omega)]
    exact h.data c hc
  stale := h.stale

theorem setBlock (hl : Layout sb) (hb : sb.isData b) (d : Block) :
    Reads sb (update v b d) (fs.setBlock b d) where
  ino := by
    intro i hi
    have hlt := (hl.iblock_lt hi).2
    have hst : sb.bmapstart < sb.datastart := Layout.bmapstart_lt
    have hge : sb.datastart ≤ b := hb.1
    rw [update_of_ne (by omega)]
    exact h.ino i hi
  used := by
    intro c hc
    have hlt := (Layout.bblock_lt hc).2
    have hge : sb.datastart ≤ b := hb.1
    rw [update_of_ne (by omega)]
    exact h.used c hc
  data := by
    intro c hc
    rcases eq_or_ne c b with rfl | hcb
    · rw [update_self]
      exact (update_self c d fs.data).symm
    · rw [update_of_ne hcb, h.data c hc]
      exact (update_of_ne hcb d fs.data).symm
  stale := fun c hc => h.stale c hc.1

theorem taint (hb : sb.isData b) : Reads sb v (fs.taint b) where
  ino := h.ino
  used := h.used
  data := h.data
  stale := by
    rintro c (hc | rfl)
    · exact h.stale c hc
    · exact hb

end

end Reads

end Xv6.Kernel
