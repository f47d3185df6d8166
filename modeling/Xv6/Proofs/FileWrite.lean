import Xv6.Proofs.Op
/-!
# `filewrite`

One transaction of `filewrite`, and from it the whole call: what it reports, what
it stores, and how far it moves the offset of the file.
-/

namespace Xv6.Kernel

open Xv6.Lib Function
open Blk

variable {k k' : Sys} {fs fs' : FS} {f : FileId} {ip : InodeId} {i addr n j r : Nat}
  {mem : UserMem} {E : Stop → Prop}

/-- Between two transactions: entry `ip` of the inode cache is for the allocated
inode `i` of `fs`. -/
structure Sys.Rests (k : Sys) (fs : FS) (ip : InodeId) (i : Nat) : Prop where
  holds : k.blk.Holds k.sb fs []
  quiet : k.blk.log.Quiet
  entry : (k.icache ip).Free fs i
  own : Own k.sb fs
  live : fs.live k.sb i
  mapped : Mapped fs i

structure Advanced (k k' : Sys) (f : FileId) (ip : InodeId) (r : Nat) : Prop where
  sb : k'.sb = k.sb
  other : ∀ jp, jp ≠ ip → k'.icache jp = k.icache jp
  ref : (k'.icache ip).ref = (k.icache ip).ref
  file : k'.ftable f = { k.ftable f with off := (k.ftable f).off + UInt32.ofNat r }
  files : ∀ g, g ≠ f → k'.ftable g = k.ftable g
  proc : k'.proc = k.proc
  cur : k'.cur = k.cur
  pid : k'.blk.pid = k.blk.pid

/-- The transaction started from a state that differs in the block layer and in
entry `ip` only. -/
theorem Advanced.of_locked {kl : Sys} {x : Inode}
    {u : Blk} (h : Advanced kl k' f ip r) (hkl : kl = (k.withBlk u).setInode ip x)
    (href : x.ref = (k.icache ip).ref) (hpid : u.pid = k.blk.pid) : Advanced k k' f ip r := by
  subst hkl
  refine ⟨h.sb, ?_, ?_, h.file, h.files, h.proc, h.cur, h.pid.trans hpid⟩
  · intro jp hj
    rw [h.other jp hj]
    exact update_of_ne hj ..
  · rw [h.ref, setInode_self, href]

theorem getFile_wp {Q : File → Sys → Prop} : Wp E (getFile f) Q k ↔ Q (k.ftable f) k := Iff.rfl

theorem advance_wp {Q : Unit → Sys → Prop} : Wp E (advance f r) Q k ↔
      Q () (k.setFile f { k.ftable f with off := (k.ftable f).off + UInt32.ofNat r }) := Iff.rfl

private theorem chunkEnd_wp {r : Int} (h : k.HasInode fs ip i) (halone : k.blk.log.Alone)
    (hlock : (k.icache ip).lock = some k.blk.pid) (href : 1 ≤ (k.icache ip).ref)
    {Q : Int → Sys → Prop} (hQ : ∀ k', k'.Rests fs ip i → Advanced k k' f ip r.toNat → Q r k') :
    Wp E (do
      advance f r.toNat
      iunlock ip
      lift endOp
      pure r) Q k := by
  rw [Wp.bind_iff, advance_wp, Wp.bind_iff]
  generalize hx : ({ k.ftable f with off := _ } : File) = x
  refine iunlock_wp (k := k.setFile f x) hlock href ?_
  rw [Wp.bind_iff, lift_wp]
  refine endOp_wp (s := k.blk) h.holds halone ?_
  intro u hu hquiet hpid
  rw [Wp.pure_iff]
  have hself : (((k.setFile f x).setInode ip { k.icache ip with lock := none }).withBlk u).icache
      ip = { k.icache ip with lock := none } := setInode_self (k := k.setFile f x) _
  have href' := (congrArg Inode.ref hself).trans (rfl : _ = (k.icache ip).ref)
  refine hQ _ ⟨hu, hquiet, ?_, h.own, h.live, h.mapped⟩ ⟨rfl, ?_, ?_, ?_, ?_, rfl, rfl, hpid⟩
  · refine ⟨?_, ?_, ?_, ?_, ?_⟩
    · exact (congrArg Inode.dev hself).trans h.dev
    · exact (congrArg Inode.inum hself).trans h.inum
    · exact le_of_le_of_eq href href'.symm
    · exact congrArg Inode.lock hself
    · exact fun _ => (congrArg Inode.di hself).trans h.copy.symm
  · exact fun jp hj => update_of_ne hj ..
  · exact href'
  · rw [hx]
    exact update_self ..
  · exact fun g hg => update_of_ne hg ..

theorem Sys.Rests.unlocked (h : k.Rests fs ip i) : k.Unlocked fs ip i :=
  ⟨h.holds, h.entry, h.own, h.live, h.mapped⟩

theorem Log.Alone.supply {s : Blk} {sb : Superblock} (h : s.Holds sb fs []) (ha : s.log.Alone)
    (hempty : s.log.lh = []) (hE : Tolerant E ∨ MAXOPBLOCKS < sb.nlog) :
    Supply E s MAXOPBLOCKS := by
  refine hE.imp (fun hE => ⟨hE, fun _ hnone => ?_⟩) fun hlog => ⟨?_, ?_, ?_⟩
  · rw [ha.ops] at hnone
    cases hnone
  · rw [ha.ops]
  · rw [hempty, h.size, List.length_nil]
    omega
  · rw [hempty]
    decide

theorem filewriteChunk_wp (h : k.Rests fs ip i) (hpos : 0 < n) (hn : n ≤ writeMax)
    (hlog : Tolerant E ∨ MAXOPBLOCKS < k.sb.nlog)
    (hstock : Stock E k.sb fs (blocksBegun (k.ftable f).off.toNat n + fs.lacks i))
    {Q : Int → Sys → Prop} (hbad : ∀ k', (fs.ino i).size.toNat < (k.ftable f).off.toNat ∨
        MAXFILE * BSIZE < (k.ftable f).off.toNat + n →
      k'.Rests fs ip i → Advanced k k' f ip 0 → Q (-1) k')
    (hQ : ∀ k' fs' off' hi', k'.Rests fs' ip i → Advanced k k' f ip n →
      Written k.sb fs fs' i (k.ftable f).off.toNat off' hi'
        (fun o => (Mem.user mem).byte (addr + (o - (k.ftable f).off.toNat)))
        (Torn (.user mem) addr (k.ftable f).off.toNat n) →
      k.sb.freeCount fs + fs'.lacks i ≤
        k.sb.freeCount fs' + blocksBegun (k.ftable f).off.toNat n + fs.lacks i →
      (k.ftable f).off.toNat ≤ (fs.ino i).size.toNat →
      (k.ftable f).off.toNat + n ≤ MAXFILE * BSIZE →
      ((Mem.user mem).readable addr n = n → off' = (k.ftable f).off.toNat + n) →
      hi' ≤ (k.ftable f).off.toNat + n → Q n k') : Wp E (filewriteChunk f ip mem addr n) Q k := by
  have hmax : writeMax = 3072 := rfl
  have hto : (UInt32.ofNat n).toNat = n := by
    rw [UInt32.toNat_ofNat', Nat.mod_eq_of_lt (by omega)]
  unfold filewriteChunk
  rw [Wp.bind_iff, lift_wp]
  refine beginOp_wp h.holds h.quiet ?_
  intro t ht halone hempty hpid
  rw [Wp.bind_iff]
  have hsup := Log.Alone.supply ht halone hempty hlog
  refine ilock_wp (k := k.withBlk t) ht hsup h.entry h.live ?_
  intro u hu hfu hlogu
  rw [Wp.bind_iff, getFile_wp, Wp.bind_iff]
  have hpidu : u.pid = t.pid := hfu.pid
  have hk := h.unlocked.locked (p := t.pid) hu
  have halone' : u.log.Alone := by
    rw [hlogu]
    exact halone
  have hE : WriteRoom E k.sb u fs i (k.ftable f).off.toNat (UInt32.ofNat n).toNat := by
    rw [hto]
    exact ⟨(hsup.congr hlogu).mono (blocks_of_chunk _ hn), hstock⟩
  refine hk.writei_wp (fun _ _ => hE) ?_ ?_ ?_
  · intro hbad'
    rw [hto] at hbad'
    refine chunkEnd_wp hk halone' ?_ ?_ ?_
    · rw [setInode_self, ← hpidu]
      rfl
    · rw [setInode_self]
      exact h.entry.ref
    · intro k' hk' hadv
      exact hbad k' hbad' hk' (hadv.of_locked rfl rfl (hpidu.trans hpid))
  · intro hz _
    rw [← UInt32.toNat_inj, hto] at hz
    exact absurd hz (Nat.ne_of_gt hpos)
  · intro w fs' off' hi hk' hd
    have hfw := hd.frame
    rw [hto] at hd ⊢
    have hentry : (((k.withBlk u).setInode ip ((k.icache ip).lockedBy t.pid (fs.ino i))).upd w ip
        (fs'.ino i)) = (k.withBlk w).setInode ip ((k.icache ip).lockedBy t.pid (fs'.ino i)) := by
      unfold Sys.upd
      rw [setInode_self, withBlk_setInode, setInode_setInode]
      rfl
    rw [hentry] at hk' ⊢
    refine chunkEnd_wp hk' ⟨?_, ?_⟩ ?_ ?_ ?_
    · rw [← halone'.ops]
      exact hfw.outstanding
    · rw [← halone'.calm]
      exact hfw.committing
    · rw [setInode_self, ← hpidu]
      exact congrArg some hfw.pid.symm
    · rw [setInode_self]
      exact h.entry.ref
    intro k' hk'' hadv
    refine hQ k' fs' off' hi hk'' (hadv.of_locked rfl rfl (hfw.pid.trans (hpidu.trans hpid)))
      hd.written ?_ hd.start hd.fits hd.full hd.top
    obtain ⟨D, _, B, _, hB, hfree⟩ := hd.spent
    change B.length + fs'.lacks i ≤ blocksBegun (k.ftable f).off.toNat n + fs.lacks i at hB
    change k.sb.freeCount fs ≤ k.sb.freeCount fs' + B.length at hfree
    omega

/-! ## What a call reports -/

/-- How many of `n` bytes `filewrite` hands to calls of `writei` that accept them,
from offset `off` of a file of `size` bytes on: whole chunks up to the largest file
size. -/
def accepted (size off n : Nat) : Nat :=
  if size < off then 0
  else if off + n ≤ MAXFILE * BSIZE then n
  else writeMax * ((MAXFILE * BSIZE - off) / writeMax)

section

variable {size off : Nat}

def chunkLen (n j : Nat) : Nat := min (n - j) writeMax

theorem chunkLen_next (hj : j % writeMax = 0) :
    j + chunkLen n j = n ∨ (j + chunkLen n j) % writeMax = 0 := by
  have hw : writeMax = 3072 := rfl
  unfold chunkLen
  rw [hw] at hj ⊢
  omega

theorem accepted_ge (hoff : off ≤ size) (hj : j % writeMax = 0)
    (hfit : off + j + chunkLen n j ≤ MAXFILE * BSIZE) (hlt : j < n) :
    j + chunkLen n j ≤ accepted size off n := by
  have hmax : MAXFILE * BSIZE = 274432 := rfl
  have hw : writeMax = 3072 := rfl
  unfold chunkLen at *
  unfold accepted
  rw [hw] at hj
  rw [hmax, hw] at hfit
  rw [if_neg (by omega), hmax, hw]
  split
  · omega
  · omega

theorem accepted_eq (hoff : off ≤ size) (hj : j = n ∨ j % writeMax = 0) (hjn : j ≤ n)
    (hfit : off + j ≤ MAXFILE * BSIZE)
    (hstop : j < n → MAXFILE * BSIZE < off + j + chunkLen n j) : accepted size off n = j := by
  have hmax : MAXFILE * BSIZE = 274432 := rfl
  have hw : writeMax = 3072 := rfl
  unfold chunkLen at *
  unfold accepted
  rw [hw] at hj
  rw [hmax] at hfit
  rw [hmax, hw] at hstop
  rw [if_neg (by omega), hmax, hw]
  split
  · omega
  · omega

end

/-- After `j` bytes, all of them stored. -/
structure StoredAll (k k' : Sys) (fs fs' : FS) (f : FileId) (i : Nat) (mem : UserMem)
    (addr j : Nat) : Prop where
  off : (k'.ftable f).off.toNat = (k.ftable f).off.toNat + j
  fits : 0 < j → (k.ftable f).off.toNat ≤ (fs.ino i).size.toNat ∧
    (k.ftable f).off.toNat + j ≤ MAXFILE * BSIZE
  size : (fs'.ino i).size.toNat =
    if j = 0 then (fs.ino i).size.toNat
    else max (fs.ino i).size.toNat ((k.ftable f).off.toNat + j)
  byte : ∀ x, x < j →
    (Mem.user mem).load (addr + x) = some (fs'.byte i ((k.ftable f).off.toNat + x)) ∧
    ¬fs'.stale (fs'.slot i (fileSlot (((k.ftable f).off.toNat + x) / BSIZE)))

/-- The offset has moved past an accepted byte that could not be read. -/
def Skipped (k k' : Sys) (fs : FS) (f : FileId) (i : Nat) (mem : UserMem) (addr n : Nat) : Prop :=
  ∃ x, x < accepted (fs.ino i).size.toNat (k.ftable f).off.toNat n ∧
    (Mem.user mem).load (addr + x) = none ∧
    (k.ftable f).off.toNat + x < (k'.ftable f).off.toNat

section

variable {k'' : Sys} {fs'' : FS} {m : Nat}

theorem Advanced.off_toNat (h : Advanced k k' f ip m)
    (hfit : (k.ftable f).off.toNat + m ≤ MAXFILE * BSIZE) :
    (k'.ftable f).off.toNat = (k.ftable f).off.toNat + m := by
  have hmax : MAXFILE * BSIZE = 274432 := rfl
  rw [h.file]
  rw [UInt32.toNat_add, UInt32.toNat_ofNat', Nat.mod_eq_of_lt (a := m) (by omega),
    Nat.mod_eq_of_lt (by omega)]

theorem Advanced.refl (k : Sys) (f : FileId) (ip : InodeId) : Advanced k k f ip 0 where
  sb := rfl
  other := fun _ _ => rfl
  ref := rfl
  file := by
    rw [show UInt32.ofNat 0 = 0 from rfl, UInt32.add_zero]
  files := fun _ _ => rfl
  proc := rfl
  cur := rfl
  pid := rfl

theorem Advanced.off_zero (h : Advanced k k' f ip 0) : (k'.ftable f).off = (k.ftable f).off := by
  rw [h.file]
  exact UInt32.add_zero _

namespace StoredAll

theorem zero (k : Sys) (fs : FS) (f : FileId) (i : Nat) (mem : UserMem) (addr : Nat) :
    StoredAll k k fs fs f i mem addr 0 where
  off := rfl
  fits := fun h => absurd h (Nat.lt_irrefl 0)
  size := rfl
  byte := fun _ h => absurd h (Nat.not_lt_zero _)

section

variable (h : StoredAll k k' fs fs' f i mem addr j)
include h

theorem addr_lt (haddr : addr < 2 ^ 64) :
    addr + j < 2 ^ 64 := by
  rcases Nat.eq_zero_or_pos j with rfl | hpos
  · exact haddr
  have hload := (h.byte (j - 1) (by omega)).1
  have hva : MAXVA = 2 ^ 38 := rfl
  by_contra hge
  rw [Mem.load_user] at hload
  unfold walkaddr at hload
  rw [if_pos (by omega)] at hload
  cases hload

theorem same (hadv : Advanced k' k'' f ip 0) :
    StoredAll k k'' fs fs' f i mem addr j where
  off := by
    rw [hadv.off_zero]
    exact h.off
  fits := h.fits
  size := h.size
  byte := h.byte

theorem next (hk' : k'.Rests fs' ip i) (hadv : Advanced k' k'' f ip m) (hpos : 0 < m) {hi' : Nat}
    (hw : Written k'.sb fs' fs'' i (k'.ftable f).off.toNat ((k'.ftable f).off.toNat + m) hi'
      (fun o => (Mem.user mem).byte (addr + j + (o - (k'.ftable f).off.toNat)))
      (Torn (.user mem) (addr + j) (k'.ftable f).off.toNat m))
    (hoff : (k'.ftable f).off.toNat ≤ (fs'.ino i).size.toNat)
    (hlen : (k'.ftable f).off.toNat + m ≤ MAXFILE * BSIZE)
    (hread : (Mem.user mem).readable (addr + j) m = m)
    (htop : hi' ≤ (k'.ftable f).off.toNat + m) : StoredAll k k'' fs fs'' f i mem addr (j + m) := by
  have hend : hi' = (k'.ftable f).off.toNat + m := Nat.le_antisymm htop hw.reach.2
  have hsize := hw.size
  have ho := h.off
  rw [ho] at hend hoff hlen hw hsize
  refine ⟨?_, ?_, ?_, ?_⟩
  · rw [hadv.off_toNat (by rw [ho]; exact hlen), ho, Nat.add_assoc]
  · intro _
    refine ⟨?_, by omega⟩
    rcases Nat.eq_zero_or_pos j with rfl | hj
    · have hs := h.size
      rw [if_pos rfl] at hs
      omega
    · exact (h.fits hj).1
  · rw [if_neg (by omega), hsize, h.size]
    split
    · omega
    · omega
  intro x hx
  by_cases hxj : x < j
  · obtain ⟨hload, hst⟩ := h.byte x hxj
    have hlt : (k.ftable f).off.toNat + x < (fs'.ino i).size.toNat := by
      have hs := h.size
      rw [if_neg (by omega)] at hs
      omega
    obtain ⟨hn, h0⟩ := hk'.mapped.at_offset hlt
    refine ⟨?_, ?_⟩
    · rw [hload, hw.outside _ hn (by omega) h0 hst]
    rw [hw.keep _ hn h0]
    intro hst'
    rcases hw.stale _ hst' with hst' | ⟨_, _, htorn, _⟩
    · exact hst hst'
    · exact not_torn hread _ htorn
  · have hr := Mem.readable_eq_iff.mp hread (x - j) (by omega)
    rw [show addr + j + (x - j) = addr + x by omega] at hr
    obtain ⟨b, hb⟩ := Option.isSome_iff_exists.mp hr
    refine ⟨?_, ?_⟩
    · rw [hw.inside _ (by omega) (by omega), hb]
      unfold Mem.byte
      rw [show addr + j + ((k.ftable f).off.toNat + x - ((k.ftable f).off.toNat + j)) =
        addr + x by omega, hb]
      rfl
    · intro hst
      obtain ⟨_, htorn⟩ := hw.settled _ (by omega) (by omega) hst
      exact not_torn hread _ htorn

theorem accepted_of_stop (hmap : Mapped fs i) (hjn : j ≤ n) (hj : j = n ∨ j % writeMax = 0)
    (hstop : j < n → (fs'.ino i).size.toNat < (k'.ftable f).off.toNat ∨
      MAXFILE * BSIZE < (k'.ftable f).off.toNat + chunkLen n j) :
    accepted (fs.ino i).size.toNat (k.ftable f).off.toNat n = j := by
  have ho := h.off
  have hs := h.size
  have hsmall := hmap.small
  rcases Nat.eq_zero_or_pos j with rfl | hpos
  · rw [if_pos rfl] at hs
    by_cases hlt : (fs.ino i).size.toNat < (k.ftable f).off.toNat
    · exact if_pos hlt
    refine accepted_eq (by omega) hj hjn (by omega) ?_
    intro hlt'
    rcases hstop hlt' with hx | hx
    · omega
    · omega
  · obtain ⟨hle, hfit⟩ := h.fits hpos
    refine accepted_eq hle hj hjn hfit ?_
    intro hlt
    rw [if_neg (by omega)] at hs
    rcases hstop hlt with hx | hx
    · omega
    · omega

section

variable (hj : j % writeMax = 0) (hlt : j < n)
  (hoff : (k'.ftable f).off.toNat ≤ (fs'.ino i).size.toNat)
  (hlen : (k'.ftable f).off.toNat + chunkLen n j ≤ MAXFILE * BSIZE)
include hj hlt hoff hlen

theorem chunk_le_accepted :
    j + chunkLen n j ≤ accepted (fs.ino i).size.toNat (k.ftable f).off.toNat n := by
  have ho := h.off
  have hs := h.size
  refine accepted_ge ?_ hj (by omega) hlt
  rcases Nat.eq_zero_or_pos j with rfl | hpos
  · rw [if_pos rfl] at hs
    omega
  · exact (h.fits hpos).1

theorem skipped (hadv : Advanced k' k'' f ip (chunkLen n j))
    (hread : (Mem.user mem).readable (addr + j) (chunkLen n j) ≠ chunkLen n j) :
    Skipped k k'' fs f i mem addr n := by
  have hle := h.chunk_le_accepted hj hlt hoff hlen
  have hnew := hadv.off_toNat hlen
  have ho := h.off
  rw [ne_eq, Mem.readable_eq_iff] at hread
  push Not at hread
  obtain ⟨y, hy, hnone⟩ := hread
  refine ⟨j + y, by omega, ?_, by omega⟩
  rw [← Nat.add_assoc]
  simpa using hnone

end

end

end StoredAll

theorem Skipped.next (h : Skipped k k' fs f i mem addr n) (hadv : Advanced k' k'' f ip r)
    (hlen : (k'.ftable f).off.toNat + r ≤ MAXFILE * BSIZE ∨ r = 0) :
    Skipped k k'' fs f i mem addr n := by
  obtain ⟨x, hx, hnone, hlt⟩ := h
  refine ⟨x, hx, hnone, ?_⟩
  rcases hlen with hlen | rfl
  · rw [hadv.off_toNat hlen]
    omega
  · rw [hadv.off_zero]
    exact hlt

/-- Where the loop of `filewrite` leaves the file: either everything accepted is
stored, or an accepted byte is skipped. -/
def LoopEnd (k k' : Sys) (fs fs' : FS) (f : FileId) (i : Nat) (mem : UserMem)
    (addr n j : Nat) : Prop :=
  StoredAll k k' fs fs' f i mem addr j ∧
      accepted (fs.ino i).size.toNat (k.ftable f).off.toNat n = j ∨
    Skipped k k' fs f i mem addr n

theorem loopEnd_of_stop (hmap : Mapped fs i) (hjn : j ≤ n) (hj : j = n ∨ j % writeMax = 0)
    (hstate : StoredAll k k' fs fs' f i mem addr j ∨ Skipped k k' fs f i mem addr n)
    (hadv : Advanced k' k'' f ip 0)
    (hstop : j < n → (fs'.ino i).size.toNat < (k'.ftable f).off.toNat ∨
      MAXFILE * BSIZE < (k'.ftable f).off.toNat + chunkLen n j) :
    LoopEnd k k'' fs fs' f i mem addr n j := by
  rcases hstate with hst | hsk
  · exact .inl ⟨hst.same hadv, hst.accepted_of_stop hmap hjn hj hstop⟩
  · exact .inr (hsk.next hadv (.inr rfl))

theorem filewriteLoop_wp (hE : Tolerant E) (hmap : Mapped fs i) (haddr : addr < 2 ^ 64)
    {Q : Nat → Sys → Prop}
    (hQ : ∀ k' fs' j, k'.Rests fs' ip i → LoopEnd k k' fs fs' f i mem addr n j → Q j k')
    (fuel : Nat) (hfuel : n - j ≤ fuel) (hjn : j ≤ n) (hj : j = n ∨ j % writeMax = 0)
    (hk' : k'.Rests fs' ip i)
    (hstate : StoredAll k k' fs fs' f i mem addr j ∨ Skipped k k' fs f i mem addr n) :
    Wp E (filewriteLoop f ip mem addr n fuel j) Q k' := by
  have hw : writeMax = 3072 := rfl
  induction fuel generalizing j k' fs' with
  | zero =>
    exact hQ k' fs' j hk' (loopEnd_of_stop hmap hjn hj hstate (Advanced.refl k' f ip)
      (fun hlt => by omega))
  | succ fuel ih =>
    unfold filewriteLoop
    by_cases hlt : j < n
    · have hjm : j % writeMax = 0 := by omega
      have hdef : chunkLen n j = min (n - j) writeMax := rfl
      rw [if_pos hlt, ← hdef]
      refine Wp.bind (filewriteChunk_wp hk' (by omega) (by omega) (Or.inl hE) (Or.inl hE) ?_ ?_)
      · intro k'' hrej hk'' hadv
        exact hQ k'' fs' j hk'' (loopEnd_of_stop hmap hjn hj hstate hadv fun _ => hrej)
      intro k'' fs'' off' hi' hk'' hadv hwr _ hoff hlen hfull htop
      rw [if_neg (by omega), if_neg (by simp), Int.toNat_natCast]
      refine ih (by omega) (by omega) (chunkLen_next hjm) hk'' ?_
      rcases hstate with hst | hsk
      · rw [Nat.mod_eq_of_lt (hst.addr_lt haddr)] at hwr hfull
        by_cases hread : (Mem.user mem).readable (addr + j) (chunkLen n j) = chunkLen n j
        · rw [hfull hread] at hwr
          exact .inl (hst.next hk' hadv (by omega) hwr hoff hlen hread htop)
        · exact .inr (hst.skipped hjm hlt hoff hlen hadv hread)
      · exact .inr (hsk.next hadv (.inl hlen))
    · rw [if_neg hlt]
      exact hQ k' fs' j hk' (loopEnd_of_stop hmap hjn hj hstate (Advanced.refl k' f ip)
        (fun hlt' => absurd hlt' hlt))

end

/-- What the result `r` of a call that was to write `n` bytes from `addr` says:
success means that all of them are in the file, and the offset never moves past a
byte that is not. -/
structure Reported (k k' : Sys) (fs' : FS) (f : FileId) (i : Nat) (mem : UserMem) (addr : Nat)
    (n r : Int) : Prop where
  all : 0 ≤ r → r = n ∧ (k'.ftable f).off.toNat = (k.ftable f).off.toNat + n.toNat ∧
    ∀ j, j < n.toNat →
      (Mem.user mem).load (addr + j) = some (fs'.byte i ((k.ftable f).off.toNat + j))
  stored : ∀ j, (k.ftable f).off.toNat + j < (k'.ftable f).off.toNat →
    (k.ftable f).off.toNat + j < (fs'.ino i).size.toNat ∧
    (Mem.user mem).load (addr + j) = some (fs'.byte i ((k.ftable f).off.toNat + j))

section

variable {n : Int}

def loopResult (n : Int) (j : Nat) : Int := if (j : Int) = n then n else -1

theorem StoredAll.reported (h : StoredAll k k' fs fs' f i mem addr j) (hn : 0 ≤ n) :
    Reported k k' fs' f i mem addr n (loopResult n j) where
  all := by
    unfold loopResult
    split
    · rename_i hj
      intro _
      have hto : n.toNat = j := by omega
      rw [hto]
      exact ⟨rfl, h.off, fun x hx => (h.byte x hx).1⟩
    · intro hr
      exact absurd hr (by decide)
  stored := by
    intro x hx
    rw [h.off] at hx
    have hs := h.size
    rw [if_neg (by omega)] at hs
    exact ⟨by omega, (h.byte x (by omega)).1⟩

theorem StoredAll.readable (h : StoredAll k k' fs fs' f i mem addr j) :
    (Mem.user mem).readable addr j = j := by
  rw [Mem.readable_eq_iff]
  intro x hx
  rw [(h.byte x hx).1]
  rfl

theorem Skipped.not_readable {n : Nat} (h : Skipped k k' fs f i mem addr n) :
    (Mem.user mem).readable addr (accepted (fs.ino i).size.toNat (k.ftable f).off.toNat n) ≠
      accepted (fs.ino i).size.toNat (k.ftable f).off.toNat n := by
  obtain ⟨x, hx, hnone, _⟩ := h
  rw [ne_eq, Mem.readable_eq_iff]
  intro hall
  have hsome := hall x hx
  rw [hnone] at hsome
  cases hsome

theorem Skipped.not_reported {r : Int} (h : Skipped k k' fs f i mem addr n.toNat) :
    ¬Reported k k' fs' f i mem addr n r := by
  obtain ⟨x, _, hnone, hlt⟩ := h
  intro hrep
  have hload := (hrep.stored x hlt).2
  rw [hnone] at hload
  cases hload

/-- `filewrite` reports what it stored exactly if the file is not open for writing,
or every byte that the calls of `writei` accept can be read. -/
theorem filewrite_reports_stored (h : k.Rests fs ip i) (hkind : (k.ftable f).kind = .inode ip)
    (haddr : addr < 2 ^ 64) (hn : 0 ≤ n) {r answer : Int}
    (hrun : filewrite f mem addr n answer k = .ok (r, k')) : ∃ fs', k'.Rests fs' ip i ∧
      (Reported k k' fs' f i mem addr n r ↔
        (k.ftable f).writable = false ∨
        (Mem.user mem).readable addr
            (accepted (fs.ino i).size.toNat (k.ftable f).off.toNat n.toNat) =
          accepted (fs.ino i).size.toNat (k.ftable f).off.toNat n.toNat) := by
  have hwp : Wp (fun _ => True) (filewrite f mem addr n answer) (fun r k' =>
      ∃ fs', k'.Rests fs' ip i ∧
        (Reported k k' fs' f i mem addr n r ↔ (k.ftable f).writable = false ∨
          (Mem.user mem).readable addr
              (accepted (fs.ino i).size.toNat (k.ftable f).off.toNat n.toNat) =
            accepted (fs.ino i).size.toNat (k.ftable f).off.toNat n.toNat)) k := by
    unfold filewrite
    rw [Wp.bind_iff, getFile_wp, Wp.ite_iff]
    refine ⟨fun hw => ?_, fun hw => ?_⟩
    · refine ⟨fs, h, fun _ => .inl hw, fun _ => ⟨fun hr => absurd hr (by decide), ?_⟩⟩
      intro j hj
      omega
    rw [hkind]
    refine Wp.bind_iff.mpr ?_
    refine filewriteLoop_wp (fun _ _ => trivial) h.mapped haddr ?_ n.toNat (by omega)
      (Nat.zero_le _) (.inr (Nat.zero_mod _)) h (.inl (.zero k fs f i mem addr))
    intro k' fs' j hk' hend
    rw [show (if (j : Int) = n then pure n else pure (-1) : FsM Int) = pure (loopResult n j) by
      unfold loopResult; split <;> rfl, Wp.pure_iff]
    refine ⟨fs', hk', ?_⟩
    rcases hend with ⟨hst, hacc⟩ | hsk
    · rw [hacc]
      exact iff_of_true (hst.reported hn) (.inr hst.readable)
    refine iff_of_false hsk.not_reported ?_
    rintro (hw' | hread)
    · exact hw hw'
    · exact hsk.not_readable hread
  exact hwp.of_ok hrun

def openSys (off : UInt32) : Sys :=
  { smallSys with
    blk := smallSys.blk.withLog { smallSys.blk.log with outstanding := 0 }
    icache := update smallSys.icache smallIp { smallSys.icache smallIp with lock := none }
    ftable := fun _ =>
      { kind := .inode smallIp, ref := 1, readable := true, writable := true, off := off } }

def openFile : FileId := ⟨0, by decide⟩

theorem openSys_rests (off : UInt32) : (openSys off).Rests smallFS smallIp 2 where
  holds := (Blk.Holds.cold smallLayout 1 smallDisk).setLog rfl rfl rfl rfl
  quiet := ⟨rfl, rfl, rfl⟩
  entry := by
    refine ⟨rfl, rfl, Int.le_refl 1, rfl, ?_⟩
    intro _
    exact smallFS_file.symm
  own := smallFS_own
  live := smallFS_live_file
  mapped := smallFS_mapped smallFS_live_file

/-- Ten bytes that can be read, across the end of the file. -/
theorem filewrite_reports_stored_small : ∃ k' fs',
    filewrite openFile (fun _ => some (Bytes.zero)) 0 10 0 (openSys 30715) = .ok (10, k') ∧
      Reported (openSys 30715) k' fs' openFile 2 (fun _ => some Bytes.zero) 0 10 10 := by
  have hrun : ((filewrite openFile (fun _ => some Bytes.zero) 0 10 0 (openSys 30715)).toOption.map
      fun x => x.1) = some 10 := by
    decide +kernel
  obtain ⟨r, k', hok, hr⟩ := Prog.exists_ok hrun
  simp only at hr
  subst hr
  obtain ⟨fs', _, hiff⟩ := filewrite_reports_stored (openSys_rests 30715) rfl (by decide)
    (by decide) hok
  refine ⟨k', fs', hok, hiff.mpr (.inr ?_)⟩
  rw [smallFS_file]
  decide +kernel

/-- Ten bytes from an address that is not mapped, at the end of the file: `writei`
stores nothing and returns 10 all the same. -/
theorem filewrite_unmapped : ∃ k',
    filewrite openFile (fun _ => none) 0 10 0 (openSys 30720) = .ok (10, k') ∧
      (k'.ftable openFile).off = 30730 ∧ (k'.icache smallIp).valid = true ∧
      (k'.icache smallIp).di.size = 30720 := by
  have hrun : ((filewrite openFile (fun _ => none) 0 10 0 (openSys 30720)).toOption.map fun x =>
      (x.1, (x.2.ftable openFile).off, (x.2.icache smallIp).valid,
        (x.2.icache smallIp).di.size)) = some (10, 30730, true, 30720) := by
    decide +kernel
  obtain ⟨r, k', hok, hx⟩ := Prog.exists_ok hrun
  simp only [Prod.mk.injEq] at hx
  obtain ⟨rfl, hoff, hvalid, hsize⟩ := hx
  exact ⟨k', hok, hoff, hvalid, hsize⟩

end

end Xv6.Kernel
