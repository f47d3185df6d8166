import Xv6.Proofs.Copy
import Xv6.Proofs.Readi
/-!
# `writei`

`writei` fills one block after another.  A block that cannot be copied in full
is released as it is: what was copied into it stays in the cache and, unless
the block was already recorded, never reaches the log.
-/

namespace Xv6.Kernel

open Xv6.Lib Function
open Blk

variable {sb : Superblock} {fs fs' fs'' : FS} {i lo n tot c o m : Nat}

/-- Only the bytes `lo` to `hi` of inode `i` differ, and blocks that were not mapped. -/
structure SameOutside (sb : Superblock) (fs fs' : FS) (i lo hi : Nat) : Prop where
  data : ∀ j n, j ≠ i → fs.live sb j → n < MAXFILE → fs.slot j (fileSlot n) ≠ 0 →
    fs'.data (fs.slot j (fileSlot n)) = fs.data (fs.slot j (fileSlot n))
  outside : ∀ o, o / BSIZE < MAXFILE → ¬(lo ≤ o ∧ o < hi) →
    fs.slot i (fileSlot (o / BSIZE)) ≠ 0 → ¬fs.stale (fs.slot i (fileSlot (o / BSIZE))) →
    fs'.byte i o = fs.byte i o
  fresh : ∀ n, n < MAXFILE → fs.slot i (fileSlot n) = 0 → fs'.slot i (fileSlot n) ≠ 0 →
    ¬fs'.stale (fs'.slot i (fileSlot n))

/-- `fs'` is `fs` with the bytes `lo` to `hi` of inode `i` replaced by those of
`f`, in fresh blocks where none were mapped. -/
structure Wrote (sb : Superblock) (fs fs' : FS) (i lo hi : Nat) (f : Nat → UInt8) : Prop
    extends Grows sb fs fs' i, SameOutside sb fs fs' i lo hi where
  inside : ∀ o, lo ≤ o → o < hi →
    o / BSIZE < MAXFILE ∧ fs'.slot i (fileSlot (o / BSIZE)) ≠ 0 ∧ fs'.byte i o = f o ∧
      ¬fs'.stale (fs'.slot i (fileSlot (o / BSIZE)))

section

variable {hi j l : Nat} {f : Nat → UInt8} {d : Block}

theorem FS.byte_congr (hs : fs'.slot i (fileSlot (o / BSIZE)) = fs.slot i (fileSlot (o / BSIZE)))
    (hd : fs'.data (fs.slot i (fileSlot (o / BSIZE))) =
      fs.data (fs.slot i (fileSlot (o / BSIZE)))) :
    fs'.byte i o = fs.byte i o := by
  unfold FS.byte
  rw [hs, hd]

theorem FS.slot_setBlock (hown : Own sb fs)
    (hj : fs.live sb j) (hi : fs.live sb i) (hn : n < MAXFILE)
    (hc : fs.slot i (fileSlot n) = c) (hc0 : c ≠ 0) : (fs.setBlock c d).slot j l = fs.slot j l := by
  have hne := hown.fileSlot_ne_indirect hj hi hn (by rw [hc]; exact hc0)
  rw [hc] at hne
  have hdata : (fs.setBlock c d).data (fs.slot j NDIRECT) = fs.data (fs.slot j NDIRECT) :=
    update_of_ne hne ..
  have hino : (fs.setBlock c d).ino j = fs.ino j := rfl
  exact FS.slot_congr (congrArg Dinode.addrs hino) fun _ => hdata

namespace Wrote

theorem refl (h : Own sb fs) (i lo : Nat) (f : Nat → UInt8) : Wrote sb fs fs i lo lo f where
  toGrows := .refl h i
  data := fun _ _ _ _ _ _ => rfl
  inside := fun o hlo hhi => absurd hlo (by omega)
  outside := fun _ _ _ _ _ => rfl
  fresh := fun _ _ h0 hn => absurd h0 hn

section

variable (h : Wrote sb fs fs' i lo hi f)
include h

theorem extend (hx : Extends sb fs' fs'' i)
    (hi' : fs.live sb i) : Wrote sb fs fs'' i lo hi f where
  toGrows := h.toGrows.trans hx.toGrows
  data := by
    intro j n hji hj hn h0
    have hs := h.keep j (fileSlot n) hj (fileSlot_lt hn) h0
    have hd := hx.data j n ((h.live j).mpr hj) hn (by rw [hs]; exact h0)
    rw [hs] at hd
    rw [hd, h.data j n hji hj hn h0]
  inside := by
    intro o hlo hhi
    obtain ⟨hn, h0, hb, hst⟩ := h.inside o hlo hhi
    have hl := (h.live i).mpr hi'
    have hs := hx.keep i _ hl (fileSlot_lt hn) h0
    refine ⟨hn, by rw [hs]; exact h0, ?_, ?_⟩
    · rw [← hb]
      exact FS.byte_congr hs (hx.data i _ hl hn h0)
    · rw [hs]
      exact fun hc => hst (hx.stale _ hc)
  outside := by
    intro o hn hout h0 hst
    have hl := (h.live i).mpr hi'
    have hs := h.keep i _ hi' (fileSlot_lt hn) h0
    have h0' : fs'.slot i (fileSlot (o / BSIZE)) ≠ 0 := by rw [hs]; exact h0
    rw [← h.outside o hn hout h0 hst]
    exact FS.byte_congr (hx.keep i _ hl (fileSlot_lt hn) h0') (hx.data i _ hl hn h0')
  fresh := by
    intro n hn h0 h2
    by_cases h1 : fs'.slot i (fileSlot n) = 0
    · exact (hx.fresh n hn h1 h2).2
    have hs := hx.keep i _ ((h.live i).mpr hi') (fileSlot_lt hn) h1
    rw [hs]
    exact fun hc => h.fresh n hn h0 h1 (hx.stale _ hc)

/-- A piece of one block is filled; pieces but the first start at a block
boundary. -/
theorem store (hi' : fs.live sb i) (hlo : lo ≤ hi) (hstart : hi = lo ∨ hi % BSIZE = 0)
    (hbn : hi / BSIZE < MAXFILE) (hc : fs'.slot i (fileSlot (hi / BSIZE)) = c) (hc0 : c ≠ 0)
    (hm : m ≤ BSIZE - hi % BSIZE)
    (hin : ∀ j, j < m → d.get (hi % BSIZE + j) = f (hi + j))
    (hout : ¬fs'.stale c → ∀ x, x < BSIZE → ¬(hi % BSIZE ≤ x ∧ x < hi % BSIZE + m) →
      d.get x = (fs'.data c).get x) :
    Wrote sb fs (fs'.setBlock c d) i lo (hi + m) f := by
  have hl := (h.live i).mpr hi'
  have hc0' : fs'.slot i (fileSlot (hi / BSIZE)) ≠ 0 := by rw [hc]; exact hc0
  have hslot : ∀ j k, fs'.live sb j → (fs'.setBlock c d).slot j k = fs'.slot j k :=
    fun j k hj => FS.slot_setBlock h.own hj hl hbn hc hc0
  have hdata : ∀ x, x ≠ c → (fs'.setBlock c d).data x = fs'.data x :=
    fun x hx => update_of_ne hx ..
  have hself : (fs'.setBlock c d).data c = d := update_self ..
  have hne : ∀ j n, fs'.live sb j → n < MAXFILE → fs'.slot j (fileSlot n) ≠ 0 →
      ¬(j = i ∧ n = hi / BSIZE) → fs'.slot j (fileSlot n) ≠ c := by
    intro j n hj hn h0 hdiff he
    rw [← hc] at he
    obtain ⟨e1, e2⟩ := h.own.eq_of_slot hl hj (fileSlot_lt hbn) (fileSlot_lt hn) hc0' he
    exact hdiff ⟨e1, fileSlot_inj e2⟩
  -- bytes of this block come from `d`, those of others stay
  have hbyte : ∀ o, o / BSIZE = hi / BSIZE → (fs'.setBlock c d).byte i o = d.get (o % BSIZE) := by
    intro o ho
    unfold FS.byte
    rw [hslot i _ hl, ho, hc, hself]
  have hbyte' : ∀ o, o / BSIZE < MAXFILE → o / BSIZE ≠ hi / BSIZE →
      fs'.slot i (fileSlot (o / BSIZE)) ≠ 0 → (fs'.setBlock c d).byte i o = fs'.byte i o := by
    intro o hn ho h0
    apply FS.byte_congr (hslot i _ hl)
    exact hdata _ (hne i _ hl hn h0 fun hx => ho hx.2)
  refine ⟨⟨?_, h.other, h.self, ?_, ?_, fun x hx => h.stale x hx.1⟩, ⟨?_, ?_, ?_⟩, ?_⟩
  · refine h.own.congr (fun _ => Iff.rfl) (fun j k hj _ => hslot j k hj) (fun _ => rfl) ?_
    intro j hj hs
    exact hs.1
  · intro j k hj hk h0
    rw [hslot j k ((h.live j).mpr hj), h.keep j k hj hk h0]
  · intro j k hji hj hk
    rw [hslot j k ((h.live j).mpr hj), h.same j k hji hj hk]
  · intro j n hji hj hn h0
    have hs := h.keep j _ hj (fileSlot_lt hn) h0
    rw [← h.data j n hji hj hn h0]
    apply hdata
    rw [← hs]
    exact hne j n ((h.live j).mpr hj) hn (by rw [hs]; exact h0) fun hx => hji hx.1
  · intro o hn hno h0 hst
    have hs := h.keep i _ hi' (fileSlot_lt hn) h0
    have hno' : ¬(lo ≤ o ∧ o < hi) := fun hx => hno ⟨hx.1, by omega⟩
    rw [← h.outside o hn hno' h0 hst]
    by_cases hblk : o / BSIZE = hi / BSIZE
    · rw [hbyte o hblk]
      have hsc : fs.slot i (fileSlot (o / BSIZE)) = c := by rw [← hs, hblk, hc]
      have hnst : ¬fs'.stale c := by
        rw [← hsc]
        exact fun hx => hst (h.stale _ hx)
      rw [hout hnst _ (Nat.mod_lt _ (by decide)) (by rw [BSIZE_eq] at *; omega)]
      unfold FS.byte
      rw [hblk, hc]
    · exact hbyte' o hn hblk (by rw [hs]; exact h0)
  · intro n hn h0 h2
    rw [hslot i _ hl] at h2 ⊢
    exact fun hx => h.fresh n hn h0 h2 hx.1
  · intro o ho1 ho2
    rw [hslot i _ hl]
    by_cases hold : o < hi
    · obtain ⟨hn, h0, hb, hst⟩ := h.inside o ho1 hold
      have hblk : o / BSIZE ≠ hi / BSIZE := by
        rw [BSIZE_eq] at *
        omega
      exact ⟨hn, h0, by rw [hbyte' o hn hblk h0, hb], fun hc => hst hc.1⟩
    obtain ⟨hdiv, hmod⟩ := piece_div (j := o - hi) hm (by omega)
    rw [show hi + (o - hi) = o by omega] at hdiv hmod
    refine ⟨by rw [hdiv]; exact hbn, by rw [hdiv]; exact hc0', ?_, ?_⟩
    · rw [hbyte o hdiv, hmod, hin _ (by omega)]
      congr 1
      omega
    · rw [hdiv, hc]
      exact fun hst => hst.2 rfl

end

end Wrote

end

/-- The length of the piece `writei` copies after `tot` of `n` bytes from offset
`off` on. -/
def pieceLen (off n tot : Nat) : Nat := min (n - tot) (BSIZE - (off + tot) % BSIZE)

theorem add_pieceLen_le (lo : Nat) (h : tot ≤ n) : tot + pieceLen lo n tot ≤ n := by
  unfold pieceLen
  omega

theorem pieceLen_end (lo : Nat) (h : tot < n) : 0 < pieceLen lo n tot ∧
    (tot + pieceLen lo n tot = n ∨ (lo + (tot + pieceLen lo n tot)) % BSIZE = 0) := by
  unfold pieceLen
  rw [BSIZE_eq]
  omega

/-- The number of blocks the bytes from `lo` to `lo + n` are in. -/
def blocksTouched (lo n : Nat) : Nat :=
  if n = 0 then 0 else (lo + n + (BSIZE - 1)) / BSIZE - lo / BSIZE

/-- The number of those that start at or after `lo`. -/
def blocksBegun (lo n : Nat) : Nat :=
  (lo + n + (BSIZE - 1)) / BSIZE - (lo + (BSIZE - 1)) / BSIZE

theorem blocksTouched_piece (lo : Nat) (hlt : tot < n) (hstart : tot = 0 ∨ (lo + tot) % BSIZE = 0) :
    blocksTouched lo (tot + pieceLen lo n tot) = blocksTouched lo tot + 1 := by
  have hn : tot + pieceLen lo n tot ≠ 0 := by
    unfold pieceLen
    rw [BSIZE_eq]
    omega
  unfold blocksTouched
  rw [if_neg hn]
  unfold pieceLen
  rw [BSIZE_eq] at *
  split
  · omega
  · omega

theorem blocksBegun_piece (hlt : tot < n) (hstart : tot = 0 ∨ (lo + tot) % BSIZE = 0)
    (hfirst : tot = 0 → lo % BSIZE = 0) :
    blocksBegun lo (tot + pieceLen lo n tot) = blocksBegun lo tot + 1 := by
  unfold blocksBegun pieceLen
  rw [BSIZE_eq] at *
  omega

theorem blocksTouched_mono (lo : Nat) (h : tot ≤ n) :
    blocksTouched lo tot ≤ blocksTouched lo n := by
  unfold blocksTouched
  rw [BSIZE_eq]
  split
  · exact Nat.zero_le _
  · rw [if_neg (by omega)]
    omega

theorem blocksBegun_mono (lo : Nat) (h : tot ≤ n) : blocksBegun lo tot ≤ blocksBegun lo n := by
  unfold blocksBegun
  rw [BSIZE_eq]
  omega

/-- Of the piece that goes to block `bn` some bytes can be read and some
cannot. -/
def Torn (mem : Mem) (src off n bn : Nat) : Prop :=
  ∃ tot, tot < n ∧ (tot = 0 ∨ (off + tot) % BSIZE = 0) ∧ (off + tot) / BSIZE = bn ∧
    0 < mem.readable (src + tot) (pieceLen off n tot) ∧
    mem.readable (src + tot) (pieceLen off n tot) < pieceLen off n tot

/-- The bytes `lo` to at least `off'`, and none from `lo + n` on, of inode `i`
were written; the cached copy of a block of the file that was torn may differ from
the logged one. -/
def Stored (sb : Superblock) (fs fs' : FS) (i lo n off' : Nat) (f : Nat → UInt8)
    (torn : Nat → Prop) : Prop :=
  ∃ g hi, Wrote sb fs g i lo hi f ∧ lo ≤ off' ∧ off' ≤ hi ∧ hi ≤ lo + n ∧
    (fs' = g ∨ ∃ n, n < MAXFILE ∧ torn n ∧ fs.slot i (fileSlot n) ≠ 0 ∧
      fs' = g.taint (fs.slot i (fileSlot n)))

section

variable {k : Sys} {s t u : Blk} {ip : InodeId} {di : Dinode} {fs0 : FS} {E : Stop → Prop}
  {src : Nat} {mem : Mem} {Q : Bool → Blk → Prop}

theorem get_splice_in {d : Block} {r j : Nat} {g : Nat → UInt8} (hm : m ≤ BSIZE - o)
    (hr : r ≤ m) (hj : j < r) : (d.splice o r g).get (o + j) = g j := by
  rw [Bytes.get_splice (by omega), if_pos (by omega)]
  congr 1
  omega

theorem get_splice_out {d : Block} {r x : Nat} {g : Nat → UInt8} (hx : x < BSIZE)
    (hout : ¬(o ≤ x ∧ x < o + r)) : (d.splice o r g).get x = d.get x := by
  rw [Bytes.get_splice hx, if_neg hout]

theorem writePiece_wp (h : s.Holds sb fs []) (hE : Supply E s 1) (hc : sb.isData c)
    (hfull : ∀ t d, mem.readable src m = m → (¬fs.stale c → d = fs.data c) →
      t.Holds sb (fs.setBlock c (d.splice o m fun j => mem.byte (src + j))) [] → Frame s t →
      Logged s t [c] → Q true t)
    (hnone : ∀ t, mem.readable src m ≠ m → t.Holds sb fs [] → Frame s t → t.log = s.log →
      Q false t)
    (hpart : ∀ t d, mem.readable src m ≠ m → (¬fs.stale c → d = fs.data c) →
      t.Holds sb (fs.setBlock c (d.splice o (mem.readable src m) fun j => mem.byte (src + j)))
        [] → Frame s t → t.log = s.log → Q false t)
    (htorn : ∀ t, 0 < mem.readable src m → mem.readable src m < m → c ∉ s.log.lh →
      t.Holds sb (fs.taint c) [] → Frame s t → t.log = s.log → Q false t) :
    Wp E (writePiece ROOTDEV c mem src o m) Q s := by
  unfold writePiece
  refine Wp.bind (h.bread_data_wp hE (by simp) hc (by simp) ?_)
  intro bp t v hon hr hf hbi hd hd' _ hlog
  rw [Wp.bind_iff, bdata_wp]
  simp only [eitherCopyin_eq, decide_eq_true_eq]
  generalize hde : (t.buf bp).data = d at hd hd'
  have hrle : mem.readable src m ≤ m := Mem.readable_le src m
  refine Wp.bind (hon.setData_wp ?_)
  intro u honu hfu hbu hdu _ hlogu
  rw [hbi] at hbu
  have hlogs : u.log = s.log := hlogu.trans hlog
  have hfs : Frame s u := hf.trans hfu
  have hout : ¬u.log.format.inLog c := by
    rw [hlogs]
    exact h.not_inLog (h.inodestart_le_data hc)
  refine Wp.ite_iff.mpr ⟨fun hall => ?_, fun hnot => ?_⟩
  · rw [hall] at hdu
    rw [Wp.bind_iff]
    refine honu.logWrite_wp (hE.congr hlogs) (by rw [hbu]; exact hout)
      (by rw [hbu]; exact h.layout.small hc.2) (by rw [hlogs]; exact h.nlog_le) ?_
    intro w honw hfw hbw hdw _ _ hlw
    rw [hbu, hdu] at honw
    rw [hbu] at hlw
    refine Wp.bind (honw.brelse_wp ?_ ?_)
    · intro _
      rw [hbw, hbu, hdw, hdu, update_self]
    intro x honx hfx _ hlogx
    have hfx' : Frame s x := (hfs.trans hfw).trans hfx
    exact hfull x d hall hd (h.step hfx' honx (hr.setBlock h.layout hc _) fun c hc => hc) hfx'
      ((hlw.congr_left hlogs.symm).congr_right hlogx)
  · rw [Wp.bind_iff]
    by_cases hlh : c ∈ u.log.lh
    · -- a recorded block keeps what was copied
      have habs := honu.absorb (by rw [hbu]; exact hlh)
      rw [hbu, hdu] at habs
      refine habs.brelse_wp ?_ ?_
      · intro _
        rw [hbu, hdu, update_self]
      intro w honw hfw _ hlogw
      have hfw' : Frame s w := hfs.trans hfw
      exact hpart w d hnot hd (h.step hfw' honw (hr.setBlock h.layout hc _) fun c hc => hc) hfw'
        (hlogw.trans hlogs)
    · by_cases h0 : mem.readable src m = 0
      · -- nothing was copied
        rw [h0, Bytes.splice_zero] at hdu
        refine honu.brelse_wp ?_ ?_
        · intro hclean
          rw [hbu] at hclean ⊢
          rw [hdu, hr.data c hc]
          exact hd (hclean.resolve_left hlh)
        intro w honw hfw _ hlogw
        have hfw' : Frame s w := hfs.trans hfw
        exact hnone w hnot (h.step hfw' honw hr fun c hc => hc) hfw' (hlogw.trans hlogs)
      · refine honu.brelse_stale_wp (by rw [hbu]; exact hlh) (by rw [hbu]; exact hout) ?_
        intro w honw hfw _ hlogw
        rw [hbu] at honw
        have hfw' : Frame s w := hfs.trans hfw
        refine htorn w (Nat.pos_of_ne_zero h0) (Nat.lt_of_le_of_ne hrle hnot) ?_
          (h.step hfw' honw (hr.taint hc) fun c hc => hc) hfw' (hlogw.trans hlogs)
        rw [← hlogs]
        exact hlh

/-- What writing the blocks of `tot` bytes from `lo` on records and takes. -/
def SpentUpTo (sb : Superblock) (s t : Blk) (fs fs' : FS) (i lo tot : Nat) : Prop :=
  ∃ D : List Nat, D.length ≤ blocksTouched lo tot ∧
    Spent sb s t fs fs' i D (blocksBegun lo tot)

namespace SpentUpTo

section

variable (h : SpentUpTo sb s t fs fs' i lo tot)
include h

theorem mono (htot : tot ≤ n) :
    SpentUpTo sb s t fs fs' i lo n := by
  obtain ⟨D, hD, B, hl, hb, hfree⟩ := h
  have h1 := blocksTouched_mono lo htot
  have h2 := blocksBegun_mono lo htot
  exact ⟨D, by omega, B, hl, by omega, hfree⟩

theorem supply (htot : tot ≤ n)
    (hE : Supply E s (blocksTouched lo n + blocksBegun lo n + 3)) (hf : Frame s t)
    (hnd : t.log.lh.Nodup) : Supply E t 1 := by
  obtain ⟨D, hD, hsp⟩ := h
  have h1 := blocksTouched_mono lo htot
  have h2 := blocksBegun_mono lo htot
  have hlack := FS.lacks_le fs i
  exact hsp.supply hE hf hnd (by omega)

theorem room (hT : blocksTouched lo tot < blocksTouched lo n)
    (hB : blocksBegun lo tot < blocksBegun lo n)
    (hE : Supply E s (blocksTouched lo n + blocksBegun lo n + 3))
    (hstock : Stock E sb fs (blocksBegun lo n + fs.lacks i)) (hf : Frame s t)
    (hnd : t.log.lh.Nodup) :
    Supply E t (3 + 2 * fs'.lacks i) ∧ Stock E sb fs' (1 + fs'.lacks i) := by
  obtain ⟨D, hD, hsp⟩ := h
  have hlack := FS.lacks_le fs i
  exact ⟨hsp.supply hE hf hnd (by omega), hsp.stock hstock (by omega)⟩

end

end SpentUpTo

/-- The same when the last piece goes to block `c`, which may be recorded again. -/
def SpentOn (sb : Superblock) (s t : Blk) (fs fs' : FS) (i lo tot c : Nat) : Prop :=
  ∃ D : List Nat, D.length ≤ blocksTouched lo tot ∧ c ∈ D ∧
    Spent sb s t fs fs' i D (blocksBegun lo tot)

namespace SpentOn

variable {di' : Dinode} {bn : Nat}

theorem upTo (h : SpentOn sb s t fs fs' i lo tot c) : SpentUpTo sb s t fs fs' i lo tot := by
  obtain ⟨D, hD, _, hsp⟩ := h
  exact ⟨D, hD, hsp⟩

theorem fill (h : SpentOn sb s t fs fs' i lo tot c) (hl : Logged t u [c])
    (hslot : fs''.slot i NDIRECT = fs'.slot i NDIRECT) (hused : fs''.used = fs'.used) :
    SpentUpTo sb s u fs fs'' i lo tot := by
  obtain ⟨D, hD, hc, hsp⟩ := h
  exact ⟨D, hD, hsp.log hl (fun _ hb => hb) hc hslot hused⟩

theorem of_bmapped (h : SpentUpTo sb s t fs (fs'.setIno i di) i lo tot)
    (hb : Bmapped t u sb fs' fs'' i di di' bn c) (hl : (fs'.setIno i di).live sb i)
    (hT : blocksTouched lo m = blocksTouched lo tot + 1)
    (hB : blocksBegun lo tot ≤ blocksBegun lo m)
    (hmiss : (fs'.setIno i di).slot i (fileSlot bn) = 0 →
      blocksBegun lo m = blocksBegun lo tot + 1) :
    SpentOn sb s u fs (fs''.setIno i di') i lo m c := by
  obtain ⟨D, hD, hsp⟩ := h
  obtain ⟨B, hlB, hlen, hfree⟩ :=
    hsp.trans hb.spent fun h0 => hb.ext.keep i NDIRECT hl (by decide) h0
  refine ⟨D ++ [c], ?_, by simp, B, hlB, Nat.le_trans hlen ?_, hfree⟩
  · rw [List.length_append, List.length_singleton]
    omega
  split
  · rename_i h0
    rw [hmiss h0]
  · omega

end SpentOn

/-- The loop of `writei` after `tot` bytes; `s0` and `fs0` are those it started
with. -/
structure Writing (sb : Superblock) (s0 s : Blk) (fs0 fs : FS) (i lo n tot : Nat)
    (f : Nat → UInt8) : Prop where
  le : tot ≤ n
  frame : Frame s0 s
  spent : SpentUpTo sb s0 s fs0 fs i lo tot
  wrote : Wrote sb fs0 fs i lo (lo + tot) f
  start : tot < n → tot = 0 ∨ (lo + tot) % BSIZE = 0
  ahead : tot < n → ∀ m, m < MAXFILE → (lo + tot) / BSIZE ≤ m →
    fs.slot i (fileSlot m) = fs0.slot i (fileSlot m)

/-- It ends at offset `off'`. -/
structure WriteEnd (sb : Superblock) (s0 t : Blk) (fs0 fs' : FS) (i lo n off' : Nat) (mem : Mem)
    (src : Nat) : Prop where
  frame : Frame s0 t
  spent : SpentUpTo sb s0 t fs0 fs' i lo n
  stored : Stored sb fs0 fs' i lo n off' (fun o => mem.byte (src + (o - lo))) (Torn mem src lo n)
  full : mem.readable src n = n → off' = lo + n
  le : off' ≤ lo + n

section

variable {s0 : Blk} {f : Nat → UInt8} {di' : Dinode}

theorem Writing.finish (h : Writing sb s0 s fs0 fs i lo n n fun o => mem.byte (src + (o - lo))) :
    WriteEnd sb s0 s fs0 fs i lo n (lo + n) mem src where
  frame := h.frame
  spent := h.spent
  stored := ⟨_, _, h.wrote, by omega, le_rfl, le_rfl, .inl rfl⟩
  full := fun _ => rfl
  le := le_rfl

/-- The block after `r` bytes of the piece were copied into it. -/
theorem Wrote.piece {d : Block} {r : Nat} (hi : fs0.live sb i)
    (h : Wrote sb fs0 fs i lo (lo + tot) fun o => mem.byte (src + (o - lo)))
    (hbn : (lo + tot) / BSIZE < MAXFILE) (hc : fs.slot i (fileSlot ((lo + tot) / BSIZE)) = c)
    (hc0 : c ≠ 0) (hstart : tot = 0 ∨ (lo + tot) % BSIZE = 0) (hr : r ≤ BSIZE - (lo + tot) % BSIZE)
    (hd : ¬fs.stale c → d = fs.data c) :
    Wrote sb fs0 (fs.setBlock c
      (d.splice ((lo + tot) % BSIZE) r fun j => mem.byte (src + tot + j))) i lo (lo + tot + r)
      fun o => mem.byte (src + (o - lo)) := by
  refine h.store hi (by omega) (by omega) hbn hc hc0 (by omega) ?_ ?_
  · intro j hj
    rw [get_splice_in (m := r) (by omega) (Nat.le_refl r) hj]
    congr 1
    omega
  · intro hst x hx hout
    rw [get_splice_out hx hout, hd hst]

variable (hE : Supply E s0 (blocksTouched lo n + blocksBegun lo n + 3))
  (hi : fs0.live k.sb i) (hlen : lo + n ≤ MAXFILE * BSIZE)
  (hfirst : lo % BSIZE ≠ 0 → fs0.slot i (fileSlot (lo / BSIZE)) ≠ 0)

section

variable (h : Writing k.sb s0 s fs0 (fs.setIno i di) i lo n tot f) (hlt : tot < n)
include hlen hfirst h hlt

/-- Only a block that starts in the range can be missing. -/
theorem Writing.missing (h0 : (fs.setIno i di).slot i (fileSlot ((lo + tot) / BSIZE)) = 0) :
    blocksBegun lo (tot + pieceLen lo n tot) = blocksBegun lo tot + 1 := by
  have hbn : (lo + tot) / BSIZE < MAXFILE := by
    rw [BSIZE_eq] at *
    omega
  refine blocksBegun_piece hlt (h.start hlt) ?_
  rintro rfl
  by_contra hne
  rw [h.ahead hlt _ hbn le_rfl] at h0
  exact hfirst hne h0

theorem Writing.room (hstock : Stock E k.sb fs0 (blocksBegun lo n + fs0.lacks i))
    (hE : Supply E s0 (blocksTouched lo n + blocksBegun lo n + 3)) (hnd : s.log.lh.Nodup)
    (h0 : (fs.setIno i di).slot i (fileSlot ((lo + tot) / BSIZE)) = 0) :
    Supply E s (3 + 2 * (fs.setIno i di).lacks i) ∧
      Stock E k.sb (fs.setIno i di) (1 + (fs.setIno i di).lacks i) := by
  have hmn := add_pieceLen_le lo h.le
  have hT := blocksTouched_piece lo hlt (h.start hlt)
  have hTn := blocksTouched_mono lo hmn
  have hB := h.missing hlen hfirst hlt h0
  have hBn := blocksBegun_mono lo hmn
  exact h.spent.room (by omega) (by omega) hE hstock h.frame hnd

include hi

theorem Writing.bmapped (hb : Bmapped s t k.sb fs fs' i di di' ((lo + tot) / BSIZE) c) :
    SpentOn k.sb s0 t fs0 (fs'.setIno i di') i lo (tot + pieceLen lo n tot) c :=
  SpentOn.of_bmapped h.spent hb ((h.wrote.live i).mpr hi) (blocksTouched_piece lo hlt (h.start hlt))
    (blocksBegun_mono lo (Nat.le_add_right _ _)) (h.missing hlen hfirst hlt)

end

include hE hi hlen hfirst

/-- One round of the loop goes on to the next, or ends it. -/
theorem Writing.piece_wp
    (h : Writing k.sb s0 s fs0 (fs.setIno i di) i lo n tot fun o => mem.byte (src + (o - lo)))
    (hlt : tot < n) (hb : Bmapped s t k.sb fs fs' i di di' ((lo + tot) / BSIZE) c)
    (hnext : ∀ u fs'', u.Holds k.sb fs'' [] → fs''.ino = fs'.ino →
      Writing k.sb s0 u fs0 (fs''.setIno i di') i lo n (tot + pieceLen lo n tot)
        (fun o => mem.byte (src + (o - lo))) → Q true u)
    (hstop : ∀ u fs'', u.Holds k.sb fs'' [] → fs''.ino = fs'.ino →
      WriteEnd k.sb s0 u fs0 (fs''.setIno i di') i lo n (lo + tot) mem src → Q false u) :
    Wp E (writePiece ROOTDEV c mem (src + tot) ((lo + tot) % BSIZE) (pieceLen lo n tot)) Q t := by
  have hbn : (lo + tot) / BSIZE < MAXFILE := by
    rw [BSIZE_eq] at *
    omega
  have hmn := add_pieceLen_le lo h.le
  obtain ⟨hpos, hend⟩ := pieceLen_end lo hlt
  have hm : pieceLen lo n tot ≤ BSIZE - (lo + tot) % BSIZE := Nat.min_le_right _ _
  have hft : Frame s0 t := h.frame.trans hb.frame
  have hon := h.bmapped hi hlen hfirst hlt hb
  have hw := h.wrote.extend hb.ext hi
  have hl := (hw.live i).mpr hi
  have hdata : k.sb.isData c := by
    rw [← hb.slot]
    exact hw.own.isData hl (fileSlot_lt hbn) (by rw [hb.slot]; exact hb.ne_zero)
  have hrle : mem.readable (src + tot) (pieceLen lo n tot) ≤ pieceLen lo n tot :=
    Mem.readable_le _ _
  have hfull : mem.readable (src + tot) (pieceLen lo n tot) ≠ pieceLen lo n tot →
      mem.readable src n ≠ n := fun hne hn => hne (Mem.readable_sub hn hmn)
  -- filling the block moves no slot
  have hslot : ∀ d l, ((fs'.setIno i di').setBlock c d).slot i l = (fs'.setIno i di').slot i l :=
    fun d l => FS.slot_setBlock hw.own hl hl hbn hb.slot hb.ne_zero
  have hsame : ∀ u, u.log = t.log → Logged t u [c] :=
    fun u hlog => (Logged.of_log hlog).mono (by simp)
  refine writePiece_wp hb.holds (hon.upTo.supply hmn hE hft hb.holds.nodup) hdata ?_ ?_ ?_ ?_
  · intro u d _ hd hu hfu hlu
    have hst := hw.piece hi hbn hb.slot hb.ne_zero (h.start hlt) hm hd
    rw [Nat.add_assoc lo] at hst
    refine hnext u _ hu rfl
      ⟨hmn, hft.trans hfu, hon.fill hlu (hslot _ _) rfl, hst, fun _ => .inr (by omega), ?_⟩
    intro hlt' l hl hle
    have hl2 : (lo + tot) / BSIZE < l := by
      rw [BSIZE_eq] at *
      omega
    refine (hslot _ _).trans ?_
    rw [hb.only l hl (by omega)]
    exact h.ahead hlt l hl (Nat.le_of_lt hl2)
  · intro u hne hu hfu hlog
    exact hstop u fs' hu rfl ⟨hft.trans hfu, (hon.fill (hsame u hlog) rfl rfl).mono hmn,
      ⟨_, _, hw, by omega, le_rfl, by omega, .inl rfl⟩, fun hn => absurd hn (hfull hne), by omega⟩
  · intro u d hne hd hu hfu hlog
    exact hstop u _ hu rfl ⟨hft.trans hfu, (hon.fill (hsame u hlog) (hslot _ _) rfl).mono hmn,
      ⟨_, _, hw.piece hi hbn hb.slot hb.ne_zero (h.start hlt) (Nat.le_trans hrle hm) hd,
        by omega, by omega, by omega, .inl rfl⟩, fun hn => absurd hn (hfull hne), by omega⟩
  · intro u h0 h1 hlh hu hfu hlog
    -- the block was mapped before the call, or it would be recorded
    have hmapped : (fs.setIno i di).slot i (fileSlot ((lo + tot) / BSIZE)) ≠ 0 :=
      fun hz => hlh (hb.logged hz)
    rw [h.ahead hlt _ hbn le_rfl] at hmapped
    have hc : fs0.slot i (fileSlot ((lo + tot) / BSIZE)) = c := by
      rw [← hb.slot, hw.keep i _ hi (fileSlot_lt hbn) hmapped]
    refine hstop u _ hu rfl ⟨hft.trans hfu, (hon.fill (hsame u hlog) rfl rfl).mono hmn,
      ⟨_, _, hw, by omega, le_rfl, by omega,
        .inr ⟨_, hbn, ⟨tot, hlt, h.start hlt, rfl, h0, h1⟩, hmapped, ?_⟩⟩,
      fun hn => absurd hn (hfull (Nat.ne_of_lt h1)), by omega⟩
    rw [hc]
    rfl

theorem writeiLoop_wp (hstock : Stock E k.sb fs0 (blocksBegun lo n + fs0.lacks i))
    (hdev : (k.icache ip).dev = ROOTDEV) {Q : Nat → Sys → Prop} (fuel : Nat)
    (hfuel : n - tot ≤ fuel) (h : s.Holds k.sb fs [])
    (hw : Writing k.sb s0 s fs0 (fs.setIno i di) i lo n tot fun o => mem.byte (src + (o - lo)))
    (hQ : ∀ t fs' di' off', t.Holds k.sb fs' [] → fs'.ino = fs.ino →
      WriteEnd k.sb s0 t fs0 (fs'.setIno i di') i lo n off' mem src → Q off' (k.upd t ip di')) :
    Wp E (writeiLoop ip mem n fuel (src + tot) (lo + tot) tot) Q (k.upd s ip di) := by
  have hle := hw.le
  induction fuel generalizing s fs di tot with
  | zero =>
    obtain rfl : tot = n := by omega
    exact hQ s fs di _ h rfl hw.finish
  | succ fuel ih =>
    unfold writeiLoop
    by_cases hlt : tot < n
    · have hbn : (lo + tot) / BSIZE < MAXFILE := by
        rw [BSIZE_eq] at *
        omega
      rw [if_pos hlt, Wp.bind_iff, getInode_wp, Sys.upd_icache_self]
      refine Wp.bind (bmap_wp h hdev hw.wrote.own ((hw.wrote.live i).mpr hi)
        ((hw.spent.supply hle hE hw.frame h.nodup).mono (by decide)) hbn
        (hw.room hlen hfirst hlt hstock hE h.nodup) ?_)
      intro addr t fs' di' hb
      rw [Wp.bind_iff, lift_wp, hdev, Sys.upd_blk]
      refine hw.piece_wp hE hi hlen hfirst hlt hb ?_ ?_
      · intro u fs'' hu hino hw'
        have hpos : 0 < min (n - tot) (BSIZE - (lo + tot) % BSIZE) := (pieceLen_end lo hlt).1
        rw [Sys.upd_withBlk, if_pos rfl, Nat.add_assoc src, Nat.add_assoc lo]
        exact ih (by omega) hu hw' (fun z fs3 di3 off' hz hino' hend =>
          hQ z fs3 di3 off' hz ((hino'.trans hino).trans hb.ino) hend) hw'.le
      · intro u fs'' hu hino hend
        rw [Sys.upd_withBlk, if_neg Bool.false_ne_true, Wp.pure_iff]
        exact hQ u fs'' di' _ hu (hino.trans hb.ino) hend
    · obtain rfl : tot = n := by omega
      rw [if_neg hlt, Wp.pure_iff]
      exact hQ s fs di _ h rfl hw.finish

end

theorem Own.taint (h : Own sb fs)
    (hc : ∀ j, fs.live sb j → fs.slot j NDIRECT ≠ c) : Own sb (fs.taint c) where
  alloc := h.alloc
  clean := by
    rintro j hj h0 (hs | he)
    · exact h.clean j hj h0 hs
    · exact hc j hj he

/-- What a call of `writei` leaves that wrote the bytes `lo` to `off'`, and
possibly some more up to `hi`, of inode `i`. -/
structure Written (sb : Superblock) (fs fs' : FS) (i lo off' hi : Nat) (f : Nat → UInt8)
    (torn : Nat → Prop) : Prop extends SameOutside sb fs fs' i lo hi where
  own : Own sb fs'
  other : ∀ j, j ≠ i → fs'.ino j = fs.ino j
  self : fs'.ino i = { fs.ino i with addrs := (fs'.ino i).addrs, size := (fs'.ino i).size }
  size : (fs'.ino i).size.toNat = max (fs.ino i).size.toNat off'
  mapped : Mapped fs' i
  same : ∀ j k, j ≠ i → fs.live sb j → k < NSLOT → fs'.slot j k = fs.slot j k
  reach : lo ≤ off' ∧ off' ≤ hi
  inside : ∀ o, lo ≤ o → o < hi → fs'.byte i o = f o
  keep : ∀ n, n < MAXFILE → fs.slot i (fileSlot n) ≠ 0 →
    fs'.slot i (fileSlot n) = fs.slot i (fileSlot n)
  stale : ∀ c, fs'.stale c → fs.stale c ∨ ∃ n, n < MAXFILE ∧ torn n ∧
    fs.slot i (fileSlot n) ≠ 0 ∧ c = fs.slot i (fileSlot n)
  settled : ∀ o, lo ≤ o → o < hi → fs'.stale (fs'.slot i (fileSlot (o / BSIZE))) → ∃ n, torn n

theorem Written.live {off' hi : Nat} {f : Nat → UInt8} {torn : Nat → Prop}
    (h : Written sb fs fs' i lo off' hi f torn) (j : Nat) : fs'.live sb j ↔ fs.live sb j := by
  unfold FS.live
  by_cases hji : j = i
  · rw [hji, h.self]
  · rw [h.other j hji]

theorem Wrote.slot_ne_zero {off' hi : Nat} {f : Nat → UInt8} (h : Wrote sb fs fs' i lo hi f)
    (hl : fs.live sb i) (hmap : Mapped fs i) (hlo : lo ≤ (fs.ino i).size.toNat) (hoff : off' ≤ hi)
    (hn : n * BSIZE < max (fs.ino i).size.toNat off') : fs'.slot i (fileSlot n) ≠ 0 := by
  by_cases hold : n * BSIZE < (fs.ino i).size.toNat
  · have h0 := hmap.mapped n hold
    have hlt : n < MAXFILE := by
      have := hmap.small
      rw [BSIZE_eq] at *
      omega
    rw [h.keep i _ hl (fileSlot_lt hlt) h0]
    exact h0
  · -- past the old size the block was written, and is the first of it
    have hin := (h.inside (n * BSIZE) (by omega) (by omega)).2.1
    rwa [Nat.mul_div_cancel _ (by decide)] at hin

namespace Stored

variable {off' : Nat} {f : Nat → UInt8} {torn : Nat → Prop} {size : UInt32}
  (h : Stored sb fs fs' i lo n off' f torn)
include h

theorem self : fs'.ino i = { fs.ino i with addrs := (fs'.ino i).addrs } := by
  obtain ⟨g, _, hw, _, _, _, rfl | ⟨_, _, _, _, rfl⟩⟩ := h
  · exact hw.self
  · exact hw.self

theorem own (hi : fs.live sb i) : Own sb fs' := by
  obtain ⟨g, _, hw, _, _, _, rfl | ⟨n, hn, _, h0, rfl⟩⟩ := h
  · exact hw.own
  have hs := hw.keep i _ hi (fileSlot_lt hn) h0
  apply hw.own.taint
  intro j hj
  rw [← hs]
  exact hw.own.fileSlot_ne_indirect hj ((hw.live i).mpr hi) hn (by rw [hs]; exact h0)

theorem written (hi : fs.live sb i) (hmap : Mapped fs i) (hlo : lo ≤ (fs.ino i).size.toNat)
    (hoff : off' ≤ MAXFILE * BSIZE) (hsize : size.toNat = max (fs.ino i).size.toNat off') :
    ∃ hi', hi' ≤ lo + n ∧
      Written sb fs (fs'.setIno i { fs'.ino i with size := size }) i lo off' hi' f torn := by
  have hown' := h.own hi
  obtain ⟨g, hi', hw, hlo', hoff', htop, hfs'⟩ := h
  have hl := (hw.live i).mpr hi
  have hgi : fs'.ino = g.ino ∧ fs'.data = g.data := by
    rcases hfs' with rfl | ⟨_, _, _, _, rfl⟩
    · exact ⟨rfl, rfl⟩
    · exact ⟨rfl, rfl⟩
  obtain ⟨hgino, hgdata⟩ := hgi
  have hslot : ∀ j k, (fs'.setIno i { fs'.ino i with size := size }).slot j k = g.slot j k := by
    intro j k
    apply FS.slot_congr
    · by_cases hji : j = i
      · rw [hji, FS.setIno_ino_self, hgino]
      · rw [FS.setIno_ino_ne _ hji, hgino]
    · intro _
      change fs'.data _ = g.data _
      rw [hgdata]
  have hdata : (fs'.setIno i { fs'.ino i with size := size }).data = g.data := hgdata
  have hbyte : ∀ o, (fs'.setIno i { fs'.ino i with size := size }).byte i o = g.byte i o := by
    intro o
    unfold FS.byte
    rw [hslot, hdata]
  refine ⟨hi', htop, ⟨?_, ?_, ?_⟩, ?_, ?_, ?_, ?_, ?_, ?_, ⟨hlo', hoff'⟩, ?_, ?_, ?_, ?_⟩
  · intro j n hji hj hn h0
    rw [hdata]
    exact hw.data j n hji hj hn h0
  · intro o hn hno h0 hst
    rw [hbyte]
    exact hw.outside o hn hno h0 hst
  · intro n hn h0 h2
    rw [hslot] at h2 ⊢
    intro hst
    rcases hfs' with rfl | ⟨m, hm, _, hm0, rfl⟩
    · exact hw.fresh n hn h0 h2 hst
    rcases hst with hst | he
    · exact hw.fresh n hn h0 h2 hst
    have hs := hw.keep i _ hi (fileSlot_lt hm) hm0
    rw [← hs] at he
    have heq := (hw.own.eq_of_slot hl hl (fileSlot_lt hm) (fileSlot_lt hn)
      (by rw [hs]; exact hm0) he).2
    rw [fileSlot_inj heq] at h0
    exact hm0 h0
  · have hrel : Own sb (fs'.setIno i (fs'.ino i)) := by
      unfold FS.setIno
      rw [update_eq_self]
      exact hown'
    exact hrel.relabel rfl Iff.rfl
  · intro j hj
    rw [FS.setIno_ino_ne _ hj, hgino]
    exact hw.other j hj
  · rw [FS.setIno_ino_self, hgino, hw.self]
  · rw [FS.setIno_ino_self]
    exact hsize
  · constructor
    · rw [FS.setIno_ino_self]
      rw [hsize]
      have := hmap.small
      omega
    · intro n hn
      rw [FS.setIno_ino_self] at hn
      rw [hslot]
      exact hw.slot_ne_zero hi hmap hlo hoff' (by rw [← hsize]; exact hn)
  · intro j k hji hj hk
    rw [hslot]
    exact hw.same j k hji hj hk
  · intro o ho1 ho2
    rw [hbyte]
    exact (hw.inside o ho1 ho2).2.2.1
  · intro n hn h0
    rw [hslot]
    exact hw.keep i _ hi (fileSlot_lt hn) h0
  · intro c hc
    rcases hfs' with rfl | ⟨n, hn, ht, h0, rfl⟩
    · exact .inl (hw.stale c hc)
    rcases hc with hc | rfl
    · exact .inl (hw.stale c hc)
    · exact .inr ⟨n, hn, ht, h0, rfl⟩
  · intro o ho1 ho2 hst
    rw [hslot] at hst
    rcases hfs' with rfl | ⟨n, _, ht, _, rfl⟩
    · exact absurd hst (hw.inside o ho1 ho2).2.2.2
    · exact ⟨n, ht⟩

end Stored

theorem FS.setIno_eq_self (h : fs.ino i = di) : fs.setIno i di = fs := by
  unfold FS.setIno
  rw [← h, update_eq_self]

/-- What a call of `writei` records and takes: beside the blocks written, the
block of the inode. -/
def WriteSpent (sb : Superblock) (s t : Blk) (fs fs' : FS) (i lo n : Nat) : Prop :=
  ∃ D : List Nat, D.length ≤ blocksTouched lo n + 1 ∧ Spent sb s t fs fs' i D (blocksBegun lo n)

/-- The room a call of `writei` needs. -/
def WriteRoom (E : Stop → Prop) (sb : Superblock) (s : Blk) (fs : FS) (i lo n : Nat) : Prop :=
  Supply E s (blocksTouched lo n + blocksBegun lo n + 3) ∧
    Stock E sb fs (blocksBegun lo n + fs.lacks i)

theorem writeBack_wp {off' : Nat} {Q : Unit → Sys → Prop} (h : s.Holds k.sb fs [])
    (hE : Supply E s 1) (hdev : (k.icache ip).dev = ROOTDEV) (hinum : (k.icache ip).inum = i)
    (hi : i < k.sb.ninodes) (hn : n ≠ 0) (hoff : off' < 2 ^ 32)
    (hQ : ∀ t size, size.toNat = max di.size.toNat off' →
      t.Holds k.sb (fs.setIno i { di with size := size }) [] → Frame s t →
      Logged s t [k.sb.iblock i] → Q () (k.upd t ip { di with size := size })) :
    Wp E (writeBack ip n off') Q (k.upd s ip di) := by
  unfold writeBack
  rw [Wp.bind_iff, getInode_wp, Sys.upd_icache_self, if_neg hn]
  refine Wp.ite_iff.mpr ⟨fun hgt => ?_, fun hle => ?_⟩
  · rw [Wp.bind_iff]
    unfold setSize
    rw [modifyDinode_wp]
    refine iupdate_wp h hE hdev hinum hi fun t => hQ t (UInt32.ofNat off') ?_
    rw [UInt32.toNat_ofNat', Nat.mod_eq_of_lt hoff]
    exact (Nat.max_eq_right (Nat.le_of_lt hgt)).symm
  · refine iupdate_wp h hE hdev hinum hi fun t => hQ t di.size ?_
    exact (Nat.max_eq_left (Nat.not_lt.mp hle)).symm

/-- Entry `ip` of the inode cache is a copy of the allocated inode `i` of the file
system `fs`, in which no block has two owners and inode `i` has no hole. -/
structure Sys.HasInode (k : Sys) (fs : FS) (ip : InodeId) (i : Nat) : Prop where
  holds : k.blk.Holds k.sb fs []
  dev : (k.icache ip).dev = ROOTDEV
  inum : (k.icache ip).inum = i
  copy : fs.ino i = (k.icache ip).di
  own : Own k.sb fs
  live : fs.live k.sb i
  mapped : Mapped fs i

/-- What a call of `writei` that writes something leaves. -/
structure WriteDone (k : Sys) (t : Blk) (fs fs' : FS) (i lo n off' hi : Nat) (mem : Mem)
    (src : Nat) : Prop where
  frame : Frame k.blk t
  spent : WriteSpent k.sb k.blk t fs fs' i lo n
  written : Written k.sb fs fs' i lo off' hi (fun o => mem.byte (src + (o - lo)))
    (Torn mem src lo n)
  pos : 0 < n
  start : lo ≤ (fs.ino i).size.toNat
  fits : lo + n ≤ MAXFILE * BSIZE
  full : mem.readable src n = n → off' = lo + n
  top : hi ≤ lo + n

namespace Sys.HasInode

variable (h : k.HasInode fs ip i)
include h

theorem upd_self : k.upd k.blk ip (fs.ino i) = k := by
  rw [h.copy]
  exact Sys.upd_self k ip

theorem upd (ht : t.Holds k.sb fs' []) (hown : Own k.sb fs') (hlive : fs'.live k.sb i)
    (hmap : Mapped fs' i) : (k.upd t ip (fs'.ino i)).HasInode fs' ip i where
  holds := ht
  dev := by
    rw [Sys.upd_icache_self]
    exact h.dev
  inum := by
    rw [Sys.upd_icache_self]
    exact h.inum
  copy := by rw [Sys.upd_icache_self]
  own := hown
  live := hlive
  mapped := hmap

theorem writei_wp {off n : UInt32} {Q : Int → Sys → Prop}
    (hE : off.toNat ≤ (fs.ino i).size.toNat → off.toNat + n.toNat ≤ MAXFILE * BSIZE →
      WriteRoom E k.sb k.blk fs i off.toNat n.toNat)
    (hbad : (fs.ino i).size.toNat < off.toNat ∨ MAXFILE * BSIZE < off.toNat + n.toNat →
      Q (-1) k) (hzero : n = 0 → off.toNat ≤ (fs.ino i).size.toNat → Q 0 k)
    (hQ : ∀ t fs' off' hi, (k.upd t ip (fs'.ino i)).HasInode fs' ip i →
      WriteDone k t fs fs' i off.toNat n.toNat off' hi mem src →
      Q n.toNat (k.upd t ip (fs'.ino i))) : Wp E (writei ip mem src off n) Q k := by
  have h2 := n.toNat_lt
  have hmax : MAXFILE * BSIZE = 274432 := rfl
  unfold writei
  rw [Wp.bind_iff, getInode_wp, ← h.copy]
  refine Wp.ite_iff.mpr ⟨fun hx => ?_, fun hx => ?_⟩
  · rw [Wp.pure_iff]
    apply hbad
    rcases hx with hgt | hwrap
    · exact .inl (UInt32.lt_iff_toNat_lt.mp hgt)
    rw [UInt32.lt_iff_toNat_lt, UInt32.toNat_add] at hwrap
    right
    omega
  have hoff : ¬(fs.ino i).size < off := fun hy => hx (.inl hy)
  have hwrap : ¬off + n < off := fun hy => hx (.inr hy)
  rw [UInt32.lt_iff_toNat_lt] at hoff hwrap
  rw [UInt32.toNat_add] at hwrap ⊢
  have hadd : (off.toNat + n.toNat) % 2 ^ 32 = off.toNat + n.toNat := by omega
  rw [hadd]
  refine Wp.ite_iff.mpr ⟨fun hy => ?_, fun hy => ?_⟩
  · rw [Wp.pure_iff]
    exact hbad (.inr hy)
  have hlen : off.toNat + n.toNat ≤ MAXFILE * BSIZE := by omega
  rw [Wp.bind_iff]
  by_cases hn : n = 0
  · -- no round of the loop and no writing back
    subst hn
    change Wp E (do writeBack ip 0 off.toNat; pure (0 : Int)) Q k
    rw [Wp.bind_iff]
    unfold writeBack
    rw [Wp.bind_iff, getInode_wp, if_pos rfl, Wp.pure_iff]
    exact hzero rfl (by omega)
  have hpos : 0 < n.toNat := by
    apply Nat.pos_of_ne_zero
    intro hz
    apply hn
    rw [← UInt32.toNat_inj]
    exact hz
  have hself : fs.setIno i (fs.ino i) = fs := FS.setIno_eq_self rfl
  have hzero : blocksBegun off.toNat 0 = 0 := Nat.sub_self _
  obtain ⟨hsup, hstock⟩ := hE (by omega) hlen
  rw [← h.upd_self]
  refine writeiLoop_wp hsup h.live hlen ?_ hstock h.dev n.toNat le_rfl h.holds
    ⟨Nat.zero_le _, Frame.refl _, ⟨[], Nat.zero_le _, ?_⟩, ?_, fun _ => .inl rfl, ?_⟩ ?_
  · -- the block of an offset inside it starts below the size
    intro hne
    apply h.mapped.mapped
    rw [BSIZE_eq] at *
    omega
  · rw [hself, hzero]
    exact Spent.refl rfl []
  · rw [hself]
    exact Wrote.refl h.own i _ _
  · intro _ m _ _
    rw [hself]
  intro t fs' di' off' ht hino hend
  have hdi := hend.stored.self
  have hle := hend.le
  rw [FS.setIno_ino_self] at hdi
  refine Wp.bind (writeBack_wp ht (hend.spent.supply le_rfl hsup hend.frame ht.nodup) h.dev h.inum
    h.live.2.1 (Nat.ne_of_gt hpos) (by omega) ?_)
  intro u size hsize hu hfu hlu
  rw [hdi] at hsize
  obtain ⟨hi, htop, hw⟩ := hend.stored.written h.live h.mapped (by omega) (by omega) hsize
  rw [FS.setIno_setIno, FS.setIno_ino_self] at hw
  have hspent : WriteSpent k.sb k.blk u fs (fs'.setIno i { di' with size := size }) i
      off.toNat n.toNat := by
    obtain ⟨D, hD, hsp⟩ := hend.spent
    refine ⟨k.sb.iblock i :: D, ?_, hsp.log hlu (fun _ hb => List.mem_cons_of_mem _ hb)
      List.mem_cons_self ?_ rfl⟩
    · rw [List.length_cons]
      omega
    · rw [FS.slot_direct le_rfl, FS.slot_direct le_rfl,
        FS.setIno_ino_self, FS.setIno_ino_self]
  rw [Wp.pure_iff]
  have hres := hQ u _ off' hi (h.upd hu hw.own ((hw.live i).mpr h.live) hw.mapped)
    ⟨hend.frame.trans hfu, hspent, hw, hpos, by omega, hlen, hend.full, htop⟩
  rwa [FS.setIno_ino_self] at hres

end Sys.HasInode

end

end Xv6.Kernel
