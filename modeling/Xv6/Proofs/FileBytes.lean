import Xv6.Kernel.File
import Xv6.Lib.Overwrite
import Xv6.Proofs.Cold
import Xv6.Proofs.Writei
/-!
# A file is a sequence of bytes

`FS.contents` is that sequence.  `writei` overwrites part of it, `readi` returns
part of it, and what `writei` records in the log is bounded by the number of
blocks it touches.
-/

namespace Xv6.Kernel

open Xv6.Lib List
open Blk

variable {fs fs' : FS} {i src n : Nat} {E : Stop → Prop} {mem : Mem} {t : Blk}

def FS.contents (fs : FS) (i : Nat) : List UInt8 :=
  (List.range (fs.ino i).size.toNat).map (fs.byte i)

def Mem.bytes (mem : Mem) (a n : Nat) : List UInt8 :=
  (List.range n).map fun j => mem.byte (a + j)

@[simp] theorem Mem.length_bytes {a : Nat} : (mem.bytes a n).length = n := by
  unfold Mem.bytes
  rw [length_map, length_range]

theorem Mem.getElem?_bytes {a j : Nat} :
    (mem.bytes a n)[j]? = if j < n then some (mem.byte (a + j)) else none := by
  unfold Mem.bytes
  rw [List.getElem?_map]
  split
  · rw [List.getElem?_range (by assumption)]
    rfl
  · rw [List.getElem?_eq_none (by rw [length_range]; omega)]
    rfl

theorem Mem.bytes_add (mem : Mem) (a m n : Nat) :
    mem.bytes a (m + n) = mem.bytes a m ++ mem.bytes (a + m) n := by
  unfold Mem.bytes
  rw [range_add, map_append, map_map]
  congr 1
  refine map_congr_left fun j _ => ?_
  rw [Function.comp_apply, Nat.add_assoc]

namespace FS

variable {o : Nat}

@[simp] theorem length_contents : (fs.contents i).length = (fs.ino i).size.toNat := by
  unfold contents
  rw [length_map, length_range]

theorem getElem?_contents :
    (fs.contents i)[o]? = if o < (fs.ino i).size.toNat then some (fs.byte i o) else none := by
  unfold contents
  rw [List.getElem?_map]
  split
  · rw [List.getElem?_range (by assumption)]
    rfl
  · rw [List.getElem?_eq_none (by rw [length_range]; omega)]
    rfl

theorem contents_congr (hsize : (fs'.ino i).size = (fs.ino i).size)
    (hbyte : ∀ o, o < (fs.ino i).size.toNat → fs'.byte i o = fs.byte i o) :
    fs'.contents i = fs.contents i := by
  apply ext_getElem?
  intro o
  rw [getElem?_contents, getElem?_contents, hsize]
  split
  · rw [hbyte o (by assumption)]
  · rfl

def Clean (fs : FS) (i : Nat) : Prop :=
  ∀ n, n < MAXFILE → fs.slot i (fileSlot n) ≠ 0 → ¬fs.stale (fs.slot i (fileSlot n))

end FS

section

variable {sb : Superblock} {lo off' hi off : Nat} {f : Nat → UInt8} {torn : Nat → Prop} {s : Blk}

namespace Written

variable {j : Nat}

theorem contents_ne (h : Written sb fs fs' i lo off' hi f torn) (hji : j ≠ i)
    (hj : fs.live sb j) (hmap : Mapped fs j) : fs'.contents j = fs.contents j := by
  apply FS.contents_congr
  · rw [h.other j hji]
  intro o ho
  obtain ⟨hlt, h0⟩ := hmap.at_offset ho
  exact FS.byte_congr (h.same j _ hji hj (fileSlot_lt hlt)) (h.data j _ hji hj hlt h0)

theorem contents_self
    (h : Written sb fs fs' i lo (lo + n) hi (fun o => mem.byte (src + (o - lo))) torn)
    (htop : hi ≤ lo + n) (hlo : lo ≤ (fs.ino i).size.toNat) (hmap : Mapped fs i)
    (hclean : fs.Clean i) : fs'.contents i = overwrite (fs.contents i) lo (mem.bytes src n) := by
  have hend : hi = lo + n := Nat.le_antisymm htop h.reach.2
  apply ext_getElem?
  intro o
  rw [getElem?_overwrite (by rw [FS.length_contents]; exact hlo), Mem.length_bytes,
    FS.getElem?_contents, FS.getElem?_contents, Mem.getElem?_bytes, h.size]
  by_cases hin : lo ≤ o ∧ o < lo + n
  · rw [if_pos hin, if_pos (by omega), if_pos (by omega), h.inside o hin.1 (by omega)]
  rw [if_neg hin]
  by_cases ho : o < (fs.ino i).size.toNat
  · obtain ⟨hlt, h0⟩ := hmap.at_offset ho
    rw [if_pos (by omega), if_pos ho, h.outside o hlt (by omega) h0 (hclean _ hlt h0)]
  · rw [if_neg (by omega), if_neg ho]

theorem clean (h : Written sb fs fs' i lo off' hi f torn) (hclean : fs.Clean i)
    (htorn : ∀ n, ¬torn n) : fs'.Clean i := by
  intro n hn h0 hst
  by_cases hz : fs.slot i (fileSlot n) = 0
  · exact h.fresh n hn hz h0 hst
  rw [h.keep n hn hz] at hst
  rcases h.stale _ hst with hst | ⟨m, _, ht, _⟩
  · exact hclean n hn hz hst
  · exact htorn m ht

end Written

theorem not_torn (h : mem.readable src n = n) (bn : Nat) : ¬Torn mem src off n bn := by
  rintro ⟨tot, hlt, _, _, _, hshort⟩
  rw [Mem.readable_sub h (add_pieceLen_le off (Nat.le_of_lt hlt))] at hshort
  exact Nat.lt_irrefl _ hshort

theorem WriteSpent.supply
    (h : WriteSpent sb s t fs fs' i lo n) (hf : Frame s t) (hnd : t.log.lh.Nodup)
    (hE : Supply E s (blocksTouched lo n + blocksBegun lo n + 3)) : Supply E t 0 := by
  obtain ⟨D, hD, hsp⟩ := h
  have hlack := FS.lacks_le fs i
  exact hsp.supply hE hf hnd (by omega)

theorem WriteSpent.logged (h : WriteSpent sb s t fs fs' i lo n) :
    ∃ S : List Nat, S.length ≤ blocksTouched lo n + blocksBegun lo n + 3 ∧ Logged s t S := by
  obtain ⟨D, hD, B, hl, hB, _⟩ := h
  have hlack := FS.lacks_le fs i
  have hind := FS.length_indirects fs' i
  refine ⟨_, ?_, hl⟩
  simp only [length_append]
  omega

theorem blocks_of_chunk (lo : Nat) (h : n ≤ writeMax) :
    blocksTouched lo n + blocksBegun lo n + 3 ≤ MAXOPBLOCKS := by
  have hmax : writeMax = 3072 := rfl
  have hop : MAXOPBLOCKS = 10 := rfl
  unfold blocksTouched blocksBegun
  rw [BSIZE_eq]
  split
  · omega
  · omega

end

namespace Sys.HasInode

variable {k : Sys} {ip : InodeId} {off n : UInt32}

section

variable (h : k.HasInode fs ip i) {Q : Int → Sys → Prop} {dst : Nat}
include h

theorem readi_wp {Q : Nat × Mem → Sys → Prop} (hclean : fs.Clean i) (hE : Supply E k.blk 0)
    (hok : mem.readable dst (readCount (fs.ino i).size off n) = readCount (fs.ino i).size off n)
    (hQ : ∀ t mem', (k.upd t ip (fs.ino i)).HasInode fs ip i → Frame k.blk t →
      t.log = k.blk.log →
      mem.Patched mem' dst (readCount (fs.ino i).size off n)
        (fun j => fs.byte i (off.toNat + j)) →
      Q (readCount (fs.ino i).size off n, mem') (k.upd t ip (fs.ino i))) :
    Wp E (readi ip mem dst off n) Q k := by
  have hself : fs.setIno i (fs.ino i) = fs := FS.setIno_eq_self rfl
  rw [← h.upd_self]
  refine readi_inv_wp h.holds hE h.dev (by rw [hself]; exact h.own) (by rw [hself]; exact h.live)
    (by rw [hself]; exact h.mapped) (K := fun _ _ => False)
    (J := fun tot mem' => mem.Patched mem' dst tot fun j => fs.byte i (off.toNat + j))
    (Mem.Patched.zero _ _ _) ?_ ?_ ?_
  · intro tot mem' m src hm _ hJ hsrc
    have hread : mem'.readable (dst + tot) m = m := by
      rw [Mem.readable_congr (hJ.isSome (by simpa using Mem.readable_sub (o := 0) hok (by omega)))]
      exact Mem.readable_sub hok hm
    obtain ⟨hflag, hpatch⟩ := eitherCopyout_spec mem' (dst + tot) src m
    rw [hread] at hflag hpatch
    rw [hflag]
    refine ⟨fun _ => hJ.append hpatch ?_, fun hf => by simp at hf⟩
    intro j hj
    rw [hself] at hsrc
    have hpos : 0 < readCount (fs.ino i).size off n := by omega
    have hoff := readCount_add_le hpos
    obtain ⟨hlt, h0⟩ := h.mapped.at_offset (o := off.toNat + tot + j) (by omega)
    rw [hsrc j hj (hclean _ hlt h0), Nat.add_assoc]
  · intro hbad
    have hz : readCount (fs.ino i).size off n = 0 := if_pos hbad
    have hres := hQ k.blk mem (h.upd h.holds h.own h.live h.mapped) (Frame.refl _) rfl
    rw [hz] at hres
    exact hres (Mem.Patched.zero _ _ _)
  · intro t tot mem' ht hf hlog hres
    obtain ⟨rfl, hJ⟩ := hres.resolve_right fun hx => hx.2
    exact hQ t mem' (h.upd ht h.own h.live h.mapped) hf hlog hJ

end

theorem bytes_of_patched {mem' : Mem} {dst : Nat}
    (h : mem.Patched mem' dst (readCount (fs.ino i).size off n)
      fun j => fs.byte i (off.toNat + j)) : mem'.bytes dst (readCount (fs.ino i).size off n) =
      ((fs.contents i).drop off.toNat).take (readCount (fs.ino i).size off n) := by
  apply ext_getElem?
  intro j
  rw [Mem.getElem?_bytes, List.getElem?_take]
  by_cases hj : j < readCount (fs.ino i).size off n
  · have hoff := readCount_add_le (Nat.zero_lt_of_lt hj)
    have hload := h (dst + j)
    rw [if_pos (by omega), show dst + j - dst = j by omega] at hload
    rw [if_pos hj, if_pos hj, List.getElem?_drop, FS.getElem?_contents, if_pos (by omega)]
    unfold Mem.byte
    rw [hload]
    rfl
  · rw [if_neg hj, if_neg hj]

/-- `writei` overwrites the bytes of its inode and touches no other; `readi` then
returns them.  A call out of range returns `-1` and changes nothing. -/
theorem writei_overwrites (h : k.HasInode fs ip i) (hclean : fs.Clean i) (mem : Mem) (src : Nat)
    (off n : UInt32) : ((fs.ino i).size.toNat < off.toNat ∨ 2 ^ 32 ≤ off.toNat + n.toNat ∨
      MAXFILE * BSIZE < off.toNat + n.toNat → writei ip mem src off n k = .ok (-1, k)) ∧
    (off.toNat ≤ (fs.ino i).size.toNat → off.toNat + n.toNat ≤ MAXFILE * BSIZE →
      mem.readable src n.toNat = n.toNat →
      k.blk.Room (blocksTouched off.toNat n.toNat + blocksBegun off.toNat n.toNat + 3) →
      blocksBegun off.toNat n.toNat + fs.lacks i ≤ k.sb.freeCount fs →
      ∃ k' fs', writei ip mem src off n k = .ok ((n.toNat : Int), k') ∧ k'.HasInode fs' ip i ∧
        (fs'.ino i).size.toNat = max (fs.ino i).size.toNat (off.toNat + n.toNat) ∧
        fs'.contents i = overwrite (fs.contents i) off.toNat (mem.bytes src n.toNat) ∧
        (∀ j, j ≠ i → fs'.ino j = fs.ino j ∧
          (fs.live k.sb j → Mapped fs j → fs'.contents j = fs.contents j)) ∧
        ∀ (mem₁ : Mem) (dst : Nat) (off₂ n₂ : UInt32),
          mem₁.readable dst (readCount (fs'.ino i).size off₂ n₂) =
            readCount (fs'.ino i).size off₂ n₂ →
          ∃ mem₂ k'', readi ip mem₁ dst off₂ n₂ k' =
              .ok ((readCount (fs'.ino i).size off₂ n₂, mem₂), k'') ∧
            mem₂.bytes dst (readCount (fs'.ino i).size off₂ n₂) =
              ((fs'.contents i).drop off₂.toNat).take (readCount (fs'.ino i).size off₂ n₂) ∧
            ∀ a, ¬(dst ≤ a ∧ a < dst + readCount (fs'.ino i).size off₂ n₂) →
              mem₂.load a = mem₁.load a) := by
  refine ⟨fun hbad => ?_, fun hoff hlen hread hroom hfree => ?_⟩
  · have hmax : MAXFILE * BSIZE = 274432 := rfl
    have hwp : Wp (fun _ => False) (writei ip mem src off n) (fun r k' => r = -1 ∧ k' = k) k := by
      refine h.writei_wp (fun _ _ => by omega) (fun _ => ⟨rfl, rfl⟩) ?_ ?_
      · rintro rfl hoff
        have hz : (0 : UInt32).toNat = 0 := rfl
        have hsmall := h.mapped.small
        omega
      · intro _ _ _ _ _ hd
        have hstart := hd.start
        have hfits := hd.fits
        omega
    obtain ⟨r, k', hok, rfl, rfl⟩ := hwp.returns
    exact hok
  · have hE : WriteRoom (fun _ => False) k.sb k.blk fs i off.toNat n.toNat :=
      ⟨.inr hroom, .inr hfree⟩
    have hwp : Wp (fun _ => False) (writei ip mem src off n) (fun r k' => r = n.toNat ∧
        ∃ fs', k'.HasInode fs' ip i ∧ fs'.Clean i ∧ Supply (fun _ => False) k'.blk 0 ∧
          fs'.contents i = overwrite (fs.contents i) off.toNat (mem.bytes src n.toNat) ∧
          ∀ j, j ≠ i → fs'.ino j = fs.ino j ∧
            (fs.live k.sb j → Mapped fs j → fs'.contents j = fs.contents j)) k := by
      refine h.writei_wp (fun _ _ => hE) (fun hbad => by omega) ?_ ?_
      · rintro rfl _
        refine ⟨rfl, fs, h, hclean, hE.1.mono (Nat.zero_le _), ?_, fun _ _ => ⟨rfl, fun _ _ => rfl⟩⟩
        exact overwrite_nil.symm
      intro t fs' off' hi hk' hd
      have hw := hd.written
      obtain rfl := hd.full hread
      exact ⟨rfl, fs', hk', hw.clean hclean (not_torn hread),
        hd.spent.supply hd.frame hk'.holds.nodup hE.1, hw.contents_self hd.top hoff h.mapped hclean,
        fun j hj => ⟨hw.other j hj, fun hl hm => hw.contents_ne hj hl hm⟩⟩
    obtain ⟨r, k', hok, rfl, fs', hk', hclean', hE', hself, hother⟩ := hwp.returns
    refine ⟨k', fs', hok, hk', ?_, hself, hother, ?_⟩
    · rw [← FS.length_contents, hself, length_overwrite (by rw [FS.length_contents]; exact hoff),
        FS.length_contents, Mem.length_bytes]
    intro mem₁ dst off₂ n₂ hok2
    have hwp2 : Wp (fun _ => False) (readi ip mem₁ dst off₂ n₂) (fun r _ =>
        r.1 = readCount (fs'.ino i).size off₂ n₂ ∧
        mem₁.Patched r.2 dst (readCount (fs'.ino i).size off₂ n₂)
          fun j => fs'.byte i (off₂.toNat + j)) k' :=
      hk'.readi_wp hclean' hE' hok2 fun _ _ _ _ _ hpatch => ⟨rfl, hpatch⟩
    obtain ⟨⟨c, mem₂⟩, k'', hread2, hc, hpatch⟩ := hwp2.returns
    simp only at hc hpatch
    subst hc
    refine ⟨mem₂, k'', hread2, bytes_of_patched hpatch, ?_⟩
    intro a ha
    rw [hpatch a, if_neg ha]

theorem small : smallSys.HasInode smallFS smallIp 2 where
  holds := Blk.Holds.cold smallLayout 1 smallDisk
  dev := rfl
  inum := rfl
  copy := smallFS_file
  own := smallFS_own
  live := smallFS_live_file
  mapped := smallFS_mapped smallFS_live_file

theorem small_clean : smallFS.Clean 2 := fun _ _ _ hs => hs

theorem small_room {n : Nat} (hn : n ≤ 27) : smallSys.blk.Room n := by
  refine ⟨?_, ?_, ?_⟩
  · decide
  · change 0 + n + 1 ≤ 30
    omega
  · change 0 + n + 3 ≤ 30
    omega

/-- A hundred bytes across the end of the file. -/
theorem writei_overwrites_small : ∃ (k' : Sys) (fs' : FS),
    writei smallIp (.kernel fun _ => 7) 0 30700 100 smallSys = .ok (100, k') ∧
      (fs'.ino 2).size.toNat = 30800 ∧
      fs'.contents 2 = overwrite (smallFS.contents 2) 30700 (List.replicate 100 7) ∧
      fs'.contents 1 = smallFS.contents 1 := by
  have hsize : (smallFS.ino 2).size.toNat = 30720 := by rw [smallFS_file]; rfl
  have hlack : smallFS.lacks 2 = 0 := by decide +kernel
  obtain ⟨k', fs', hok, _, hsz, hself, hother, _⟩ :=
    (writei_overwrites small small_clean (.kernel fun _ => 7) 0 30700 100).2 (by rw [hsize]; decide)
      (by decide) (Mem.readable_kernel _ _ _) (small_room (by decide))
      (by rw [hlack, show smallSys.sb = smallSb from rfl, smallFS_freeCount]; decide)
  have hret : ((100 : UInt32).toNat : Int) = 100 := rfl
  rw [hret] at hok
  refine ⟨k', fs', hok, ?_, ?_, ?_⟩
  · rw [hsz, hsize]
    decide
  · have hoff : (30700 : UInt32).toNat = 30700 := rfl
    have hbytes : (Mem.kernel fun _ => 7).bytes 0 (100 : UInt32).toNat = List.replicate 100 7 := by
      decide
    rw [hself, hoff, hbytes]
  · exact (hother 1 (by decide)).2 smallFS_live_root (smallFS_mapped smallFS_live_root)

/-- The log has no room for thirty blocks: overwriting all of the file panics,
although every block is mapped and 54 blocks are free. -/
theorem writei_all_blocks : smallSys.HasInode smallFS smallIp 2 ∧ smallFS.Clean 2 ∧
    (0 : UInt32).toNat + (30720 : UInt32).toNat ≤ (smallFS.ino 2).size.toNat ∧
    (0 : UInt32).toNat + (30720 : UInt32).toNat ≤ MAXFILE * BSIZE ∧
    (Mem.kernel fun _ => 7).readable 0 (30720 : UInt32).toNat = (30720 : UInt32).toNat ∧
    blocksBegun 0 30720 + smallFS.lacks 2 ≤ smallSys.sb.freeCount smallFS ∧
    smallSys.blk.log.lh = [] ∧ smallSys.blk.log.size = LOGSIZE ∧
    writei smallIp (.kernel fun _ => 7) 0 0 30720 smallSys =
      .error (.panic .tooBigTransaction) := by
  have hlack : smallFS.lacks 2 = 0 := by decide +kernel
  have hrun : (match writei smallIp (.kernel fun _ => 7) 0 0 30720 smallSys with
      | .ok _ => none
      | .error e => some e) = some (.panic .tooBigTransaction) := by
    decide +kernel
  refine ⟨small, small_clean, ?_, by decide, Mem.readable_kernel _ _ _, ?_, rfl, rfl, ?_⟩
  · rw [smallFS_file]
    decide
  · rw [hlack, show smallSys.sb = smallSb from rfl, smallFS_freeCount]
    decide
  cases hr : writei smallIp (.kernel fun _ => 7) 0 0 30720 smallSys with
  | ok r =>
    rw [hr] at hrun
    cases hrun
  | error e =>
    rw [hr] at hrun
    rw [Option.some.inj hrun]

/-- A chunk of `filewrite` records at most `MAXOPBLOCKS` blocks, beside those the
log has already, and returns where the log has that much room. -/
theorem writei_fits_reservation (h : k.HasInode fs ip i) (mem : Mem) (src : Nat)
    (off n : UInt32) (hoff : off.toNat ≤ (fs.ino i).size.toNat) (hn : n.toNat ≤ writeMax)
    (hlen : off.toNat + n.toNat ≤ MAXFILE * BSIZE)
    (hfree : blocksBegun off.toNat n.toNat + fs.lacks i ≤ k.sb.freeCount fs) :
    (∀ r k', writei ip mem src off n k = .ok (r, k') →
      (∃ S : List Nat, S.length ≤ MAXOPBLOCKS ∧
        ∀ b ∈ k'.blk.log.lh, b ∈ k.blk.log.lh ∨ b ∈ S) ∧
      (k.blk.log.lh = [] → k'.blk.log.lh.Nodup ∧ k'.blk.log.lh.length ≤ MAXOPBLOCKS)) ∧
    (k.blk.Room MAXOPBLOCKS → ∃ r k', writei ip mem src off n k = .ok (r, k')) := by
  have hchunk := blocks_of_chunk off.toNat hn
  have hE : WriteRoom (fun _ => ¬k.blk.Room MAXOPBLOCKS) k.sb k.blk fs i off.toNat n.toNat := by
    refine ⟨?_, .inr hfree⟩
    by_cases hroom : k.blk.Room MAXOPBLOCKS
    · exact Supply.mono (.inr hroom) hchunk
    · exact .lax fun _ => hroom
  have hwp : Wp (fun _ => ¬k.blk.Room MAXOPBLOCKS) (writei ip mem src off n) (fun _ k' =>
      k'.blk.log.lh.Nodup ∧ ∃ S : List Nat, S.length ≤ MAXOPBLOCKS ∧ Logged k.blk k'.blk S) k := by
    refine h.writei_wp (fun _ _ => hE) (fun hbad => by omega) ?_ ?_
    · intro _ _
      exact ⟨h.holds.nodup, [], Nat.zero_le _, Logged.of_log rfl⟩
    intro t fs' _ _ hk' hd
    obtain ⟨S, hS, hl⟩ := hd.spent.logged
    exact ⟨hk'.holds.nodup, S, Nat.le_trans hS hchunk, hl⟩
  constructor
  · intro r k' hok
    obtain ⟨hnd, S, hS, hl⟩ := hwp.of_ok hok
    refine ⟨⟨S, hS, hl⟩, fun hnil => ⟨hnd, ?_⟩⟩
    have hle := hl.length_le hnd
    rw [hnil, length_nil, Nat.zero_add] at hle
    exact Nat.le_trans hle hS
  · intro hroom
    obtain ⟨r, k', hok, _⟩ := (hwp.mono (fun _ hno => hno hroom) fun _ _ hq => hq).returns
    exact ⟨r, k', hok⟩

theorem writei_fits_reservation_small : ∃ r k',
    writei smallIp (.kernel fun _ => 7) 0 30700 3072 smallSys = .ok (r, k') ∧
      k'.blk.log.lh.length ≤ MAXOPBLOCKS := by
  have hsize : (smallFS.ino 2).size.toNat = 30720 := by rw [smallFS_file]; rfl
  have hlack : smallFS.lacks 2 = 0 := by decide +kernel
  obtain ⟨hbound, hreturns⟩ := writei_fits_reservation small (.kernel fun _ => 7) 0
    30700 3072 (by rw [hsize]; decide) (by decide) (by decide)
    (by rw [hlack, show smallSys.sb = smallSb from rfl, smallFS_freeCount]; decide)
  obtain ⟨r, k', hok⟩ := hreturns (small_room (by decide))
  exact ⟨r, k', hok, ((hbound r k' hok).2 rfl).2⟩

end Sys.HasInode

end Xv6.Kernel
