import Xv6.Proofs.Bmap
/-!
# `readi`

Every block below the size of a file is mapped, so `readi` changes neither the
file system nor the log.
-/

namespace Xv6.Kernel

open Xv6.Lib
open Blk

variable {fs : FS} {i off o m j : Nat}

def FS.byte (fs : FS) (i o : Nat) : UInt8 :=
  (fs.data (fs.slot i (fileSlot (o / BSIZE)))).get (o % BSIZE)

structure Mapped (fs : FS) (i : Nat) : Prop where
  small : (fs.ino i).size.toNat ≤ MAXFILE * BSIZE
  mapped : ∀ n, n * BSIZE < (fs.ino i).size.toNat → fs.slot i (fileSlot n) ≠ 0

theorem BSIZE_eq : BSIZE = 1024 := rfl

theorem Mapped.at_offset (h : Mapped fs i) (ho : o < (fs.ino i).size.toNat) :
    o / BSIZE < MAXFILE ∧ fs.slot i (fileSlot (o / BSIZE)) ≠ 0 := by
  have hs := h.small
  constructor
  · rw [BSIZE_eq] at *
    omega
  apply h.mapped
  rw [BSIZE_eq]
  omega

theorem piece_div (hm : m ≤ BSIZE - off % BSIZE) (hj : j < m) :
    (off + j) / BSIZE = off / BSIZE ∧ (off + j) % BSIZE = off % BSIZE + j := by
  rw [BSIZE_eq] at *
  omega

section

variable {k : Sys} {s : Blk} {ip : InodeId} {di : Dinode} {E : Stop → Prop}
  {Q : Nat × Mem → Sys → Prop} {size off n : UInt32}

/-- The loop of `readi`.  `J` is the caller's invariant about the memory after
`tot` bytes, `K` what it wants to know after a fault. -/
theorem readiLoop_wp (h : s.Holds k.sb fs []) (hE : Supply E s 0)
    (hdev : (k.icache ip).dev = ROOTDEV) (hown : Own k.sb (fs.setIno i di))
    (hi : (fs.setIno i di).live k.sb i) (hmap : Mapped (fs.setIno i di) i) {off dst n : Nat}
    (hn : off + n ≤ di.size.toNat) {J K : Nat → Mem → Prop}
    (hstep : ∀ tot mem m src, tot + m ≤ n → m = min (n - tot) (BSIZE - (off + tot) % BSIZE) →
      J tot mem →
      (∀ j, j < m → ¬fs.stale ((fs.setIno i di).slot i (fileSlot ((off + tot + j) / BSIZE))) →
        src j = (fs.setIno i di).byte i (off + tot + j)) →
      ((eitherCopyout mem (dst + tot) src m).2 = true →
        J (tot + m) (eitherCopyout mem (dst + tot) src m).1) ∧
      ((eitherCopyout mem (dst + tot) src m).2 = false →
        K tot (eitherCopyout mem (dst + tot) src m).1))
    (hQ : ∀ t tot mem, t.Holds k.sb fs [] → Frame s t → t.log = s.log →
      (tot = n ∧ J n mem ∨ tot ≤ n ∧ K tot mem) → Q (tot, mem) (k.upd t ip di))
    (fuel tot : Nat) (mem : Mem) (htot : tot ≤ n) (hfuel : n - tot ≤ fuel) (hJ : J tot mem) :
    Wp E (readiLoop ip n fuel mem (dst + tot) (off + tot) tot) Q (k.upd s ip di) := by
  induction fuel generalizing s tot mem with
  | zero =>
    have he : tot = n := by omega
    subst he
    exact hQ s tot mem h (Frame.refl s) rfl (.inl ⟨rfl, hJ⟩)
  | succ fuel ih =>
    unfold readiLoop
    by_cases hlt : tot < n
    · have hsize : off + tot < ((fs.setIno i di).ino i).size.toNat := by
        rw [FS.setIno_ino_self]
        omega
      obtain ⟨hbn, hne⟩ := hmap.at_offset hsize
      rw [if_pos hlt, Wp.bind_iff, getInode_wp, Sys.upd_icache_self]
      refine Wp.bind (bmap_wp h hdev hown hi hE hbn (fun h0 => absurd h0 hne) ?_)
      intro addr t fs' di' hb
      obtain ⟨rfl, rfl, hlog⟩ := hb.same hne
      have haddr := hb.slot
      have hdata : k.sb.isData addr.toNat := by
        rw [← haddr]
        exact hown.isData hi (fileSlot_lt hbn) hne
      rw [Wp.bind_iff, lift_wp, hdev]
      refine hb.holds.bread_data_wp (hE.congr hlog) (by simp) hdata (by simp) ?_
      intro bp u v hon hr hf hbi hd hd' _ hlog'
      rw [Sys.upd_withBlk, Wp.bind_iff, lift_wp, bdata_wp, Sys.upd_withBlk]
      simp only [Sys.upd_blk]
      have hm : min (n - tot) (BSIZE - (off + tot) % BSIZE) ≤ BSIZE - (off + tot) % BSIZE :=
        Nat.min_le_right _ _
      have hmn : tot + min (n - tot) (BSIZE - (off + tot) % BSIZE) ≤ n := by omega
      have hpos : 0 < min (n - tot) (BSIZE - (off + tot) % BSIZE) := by
        rw [BSIZE_eq]
        omega
      generalize hdef : min (n - tot) (BSIZE - (off + tot) % BSIZE) = m at hm hmn hpos ⊢
      have hpiece := hstep tot mem m (fun j => (u.buf bp).data.get ((off + tot) % BSIZE + j))
        hmn hdef.symm hJ (by
          intro j hj hst
          obtain ⟨hdiv, hmod⟩ := piece_div hm hj
          unfold FS.byte
          rw [hdiv] at hst ⊢
          rw [haddr] at hst ⊢
          rw [hmod, hd hst]
          rfl)
      rw [Wp.bind_iff, lift_wp]
      refine hon.brelse_wp ?_ ?_
      · intro hclean
        rw [hbi, hr.data _ hdata]
        rw [hbi] at hclean
        rcases hclean with hlh | hst
        · exact hd' (hlog' ▸ hlh)
        · exact hd hst
      intro w hon' hfw _ hlogw
      have hw : w.Holds k.sb fs' [] := hb.holds.step (hf.trans hfw) hon' hr fun c hc => hc
      have hfs : Frame s w := (hb.frame.trans hf).trans hfw
      have hlogs : w.log = s.log := hlogw.trans (hlog'.trans hlog)
      rw [Sys.upd_withBlk]
      refine Wp.ite_iff.mpr ⟨fun hok => ?_, fun hok => ?_⟩
      · rw [Nat.add_assoc dst, Nat.add_assoc off]
        refine ih hw (hE.congr hlogs) ?_ (tot + m) _ hmn (by omega) (hpiece.1 hok)
        intro x tot' mem' hx hfx hlogx hres
        exact hQ x tot' mem' hx (hfs.trans hfx) (hlogx.trans hlogs) hres
      · rw [Wp.pure_iff]
        exact hQ w tot _ hw hfs hlogs (.inr ⟨htot, hpiece.2 (Bool.eq_false_iff.mpr hok)⟩)
    · have he : tot = n := by omega
      subst he
      rw [if_neg hlt, Wp.pure_iff]
      exact hQ s tot mem h (Frame.refl s) rfl (.inl ⟨rfl, hJ⟩)

private theorem readLen (hoff : ¬size < off) (hwrap : ¬off + n < off) :
    (if off + n > size then size - off else n).toNat =
      min n.toNat (size.toNat - off.toNat) := by
  rw [UInt32.lt_iff_toNat_lt] at hoff hwrap
  have hadd : (off + n).toNat = off.toNat + n.toNat := by
    rw [UInt32.toNat_add] at hwrap ⊢
    have h1 := off.toNat_lt
    have h2 := n.toNat_lt
    omega
  split
  · rename_i hgt
    have hgt' : size < off + n := hgt
    rw [UInt32.lt_iff_toNat_lt] at hgt'
    rw [UInt32.toNat_sub_of_le _ _ (UInt32.le_iff_toNat_le.mpr (by omega))]
    omega
  · rename_i hle
    have hle' : ¬size < off + n := hle
    rw [UInt32.lt_iff_toNat_lt] at hle'
    omega

/-- What `readi` returns for a file of `size` bytes when no copy faults. -/
def readCount (size off n : UInt32) : Nat :=
  if off > size ∨ off + n < off then 0 else min n.toNat (size.toNat - off.toNat)

theorem readCount_le (size off n : UInt32) : readCount size off n ≤ n.toNat := by
  unfold readCount
  split
  · exact Nat.zero_le _
  · exact Nat.min_le_left _ _

theorem readCount_add_le (h : 0 < readCount size off n) :
    off.toNat + readCount size off n ≤ size.toNat := by
  unfold readCount at *
  split at h
  · omega
  · rw [if_neg (by assumption)]
    omega

theorem readCount_eq (h : off.toNat + n.toNat ≤ size.toNat) :
    readCount size off n = n.toNat := by
  have h1 := size.toNat_lt
  unfold readCount
  rw [if_neg]
  · omega
  rintro (hgt | hwrap)
  · have hgt' : size < off := hgt
    rw [UInt32.lt_iff_toNat_lt] at hgt'
    omega
  · rw [UInt32.lt_iff_toNat_lt, UInt32.toNat_add, Nat.mod_eq_of_lt (by omega)] at hwrap
    omega

section

variable (h : s.Holds k.sb fs []) (hE : Supply E s 0) (hdev : (k.icache ip).dev = ROOTDEV)
  (hown : Own k.sb (fs.setIno i di)) (hi : (fs.setIno i di).live k.sb i)
  (hmap : Mapped (fs.setIno i di) i)
include h hE hdev hown hi hmap

theorem readi_inv_wp {mem : Mem}
    {dst : Nat} {off n : UInt32} {J K : Nat → Mem → Prop} (hJ : J 0 mem)
    (hstep : ∀ tot mem m src, tot + m ≤ readCount di.size off n →
      m = min (readCount di.size off n - tot) (BSIZE - (off.toNat + tot) % BSIZE) → J tot mem →
      (∀ j, j < m →
        ¬fs.stale ((fs.setIno i di).slot i (fileSlot ((off.toNat + tot + j) / BSIZE))) →
        src j = (fs.setIno i di).byte i (off.toNat + tot + j)) →
      ((eitherCopyout mem (dst + tot) src m).2 = true →
        J (tot + m) (eitherCopyout mem (dst + tot) src m).1) ∧
      ((eitherCopyout mem (dst + tot) src m).2 = false →
        K tot (eitherCopyout mem (dst + tot) src m).1))
    (hbad : off > di.size ∨ off + n < off → Q (0, mem) (k.upd s ip di))
    (hQ : ∀ t tot mem', t.Holds k.sb fs [] → Frame s t → t.log = s.log →
      (tot = readCount di.size off n ∧ J tot mem' ∨ tot ≤ readCount di.size off n ∧ K tot mem') →
      Q (tot, mem') (k.upd t ip di)) :
    Wp E (readi ip mem dst off n) Q (k.upd s ip di) := by
  unfold readi
  rw [Wp.bind_iff, getInode_wp, Sys.upd_icache_self]
  simp only
  refine Wp.ite_iff.mpr ⟨hbad, fun hok => ?_⟩
  have hoff : ¬di.size < off := fun hx => hok (.inl hx)
  have hlen := readLen hoff fun hx => hok (.inr hx)
  rw [UInt32.lt_iff_toNat_lt] at hoff
  rw [hlen]
  have hcount : readCount di.size off n = min n.toNat (di.size.toNat - off.toNat) := if_neg hok
  have hend : off.toNat + min n.toNat (di.size.toNat - off.toNat) ≤ di.size.toNat := by omega
  rw [← hcount] at hend ⊢
  refine readiLoop_wp h hE hdev hown hi hmap hend
    (J := J) (K := K) hstep ?_ _ 0 mem (Nat.zero_le _) le_rfl hJ
  intro t tot mem' ht hf hlog hres
  refine hQ t tot mem' ht hf hlog (hres.imp_left ?_)
  rintro ⟨rfl, hJ'⟩
  exact ⟨rfl, hJ'⟩

theorem readi_kernel_wp
    {m : Nat → UInt8} {off n : UInt32} (hn : off.toNat + n.toNat ≤ di.size.toNat)
    (hclean : ∀ j, j < n.toNat →
      ¬fs.stale ((fs.setIno i di).slot i (fileSlot ((off.toNat + j) / BSIZE))))
    (hQ : ∀ t m', t.Holds k.sb fs [] → Frame s t → t.log = s.log →
      (∀ j, j < n.toNat → m' j = (fs.setIno i di).byte i (off.toNat + j)) →
      Q (n.toNat, .kernel m') (k.upd t ip di)) :
    Wp E (readi ip (.kernel m) 0 off n) Q (k.upd s ip di) := by
  have hcount : readCount di.size off n = n.toNat := readCount_eq hn
  refine readi_inv_wp h hE hdev hown hi hmap (K := fun _ _ => False)
    (J := fun tot mem => ∃ m', mem = .kernel m' ∧
      ∀ j, j < tot → m' j = (fs.setIno i di).byte i (off.toNat + j)) ⟨m, rfl, ?_⟩ ?_ ?_ ?_
  · intro j hj
    omega
  · rintro tot _ len src hlen _ ⟨m', rfl, hm'⟩ hsrc
    refine ⟨fun _ => ⟨_, rfl, ?_⟩, fun hf => by simp [eitherCopyout] at hf⟩
    intro j hj
    simp only [Nat.zero_add]
    by_cases hin : tot ≤ j ∧ j < tot + len
    · have hst := hclean j (by omega)
      rw [if_pos hin, hsrc (j - tot) (by omega)]
      · rw [show off.toNat + tot + (j - tot) = off.toNat + j by omega]
      · rw [show off.toNat + tot + (j - tot) = off.toNat + j by omega]
        exact hst
    · rw [if_neg hin]
      exact hm' j (by omega)
  · intro hbad
    -- a bad call returns nothing, so nothing was asked for
    have hz : n.toNat = 0 := by
      rw [← hcount]
      exact if_pos hbad
    have hres := hQ s m h (Frame.refl s) rfl (by omega)
    rwa [hz] at hres
  · intro t tot mem' ht hf hlog hres
    obtain ⟨htot, m', rfl, hm'⟩ := hres.resolve_right fun hx => hx.2
    rw [hcount] at htot
    subst htot
    exact hQ t m' ht hf hlog hm'

end

end

end Xv6.Kernel
