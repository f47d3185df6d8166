import Xv6.Kernel.Sysfile
import Xv6.Proofs.Path
/-!
# New inodes

`ialloc`, `iupdate` and `dirlink` in terms of the multiset of references, and from
them the branch of `create` that makes a file.
-/

namespace Xv6.Kernel

open Xv6.Lib
open Blk

variable {fs : FS} {i : Nat} {di : Dinode}

section

variable {sb : Superblock} {j : Nat}

/-! ## Another inode record -/

theorem FS.slot_setIno_ne (h : j ≠ i) (m : Nat) : (fs.setIno i di).slot j m = fs.slot j m :=
  FS.slot_congr (by rw [FS.setIno_ino_ne _ h]) fun _ => rfl

theorem FS.live_setIno_ne (h : j ≠ i) : (fs.setIno i di).live sb j ↔ fs.live sb j := by
  unfold FS.live
  rw [FS.setIno_ino_ne _ h]

theorem FS.slot_setIno_zero (h : di.addrs = fun _ => 0) (m : Nat) :
    (fs.setIno i di).slot i m = 0 := by
  have hget : ∀ n, di.addrs.get n = 0 := by
    intro n
    rw [h]
    unfold Addrs.get
    split <;> rfl
  unfold FS.slot
  rw [FS.setIno_ino_self, hget, hget, if_pos rfl]
  split <;> rfl

theorem Mapped.setIno_ne (h : Mapped fs j) (hji : j ≠ i) : Mapped (fs.setIno i di) j where
  small := by
    rw [FS.setIno_ino_ne _ hji]
    exact h.small
  mapped := by
    intro n hn
    rw [FS.setIno_ino_ne _ hji] at hn
    rw [FS.slot_setIno_ne hji]
    exact h.mapped n hn

theorem Mapped.empty (h : di.size = 0) : Mapped (fs.setIno i di) i := by
  have hsize : ((fs.setIno i di).ino i).size.toNat = 0 := by
    rw [FS.setIno_ino_self, h]
    rfl
  refine ⟨by omega, fun n hn => ?_⟩
  rw [hsize] at hn
  exact absurd hn (Nat.not_lt_zero _)

theorem Own.setEmpty (h : Own sb fs) (hfree : (fs.ino i).type = 0)
    (haddrs : di.addrs = fun _ => 0) :
    Own sb (fs.setIno i di) where
  alloc := by
    refine h.alloc.congr ?_ fun _ => Iff.rfl
    rintro ⟨j, m⟩
    rcases eq_or_ne j i with rfl | hji
    · rw [FS.owner_none (FS.slot_setIno_zero haddrs m), FS.owner_dead fun hl => hl.2.2 hfree]
    · unfold FS.owner
      simp only [FS.live_setIno_ne hji, FS.slot_setIno_ne hji]
  clean := by
    intro j hj h0
    have hji : j ≠ i := by
      rintro rfl
      exact h0 (FS.slot_setIno_zero haddrs _)
    rw [FS.slot_setIno_ne hji] at h0 ⊢
    exact h.clean j ((FS.live_setIno_ne hji).mp hj) h0

theorem FS.byte_setIno_ne (h : j ≠ i) (o : Nat) : (fs.setIno i di).byte j o = fs.byte j o :=
  FS.byte_congr (FS.slot_setIno_ne h _) rfl

theorem FS.table_setIno_ne (h : j ≠ i) : (fs.setIno i di).table j = fs.table j := by
  unfold FS.table FS.dirent
  rw [FS.setIno_ino_ne _ h]
  simp only [FS.byte_setIno_ne h]

theorem FS.lookup_setIno_ne (h : j ≠ i) (name : Name) :
    (fs.setIno i di).lookup j name = fs.lookup j name := by
  unfold FS.lookup
  rw [FS.table_setIno_ne h]

theorem FS.Dir.setIno_ne (hd : fs.Dir j) (h : j ≠ i) : (fs.setIno i di).Dir j where
  type := by
    rw [FS.setIno_ino_ne _ h]
    exact hd.type
  whole := by
    rw [FS.setIno_ino_ne _ h]
    exact hd.whole
  clean := by
    intro n hn h0
    rw [FS.slot_setIno_ne h] at h0 ⊢
    exact hd.clean n hn h0

end

namespace Coherent

section

variable {c : Env} {k : Sys} {R : Refs} {ip dp : InodeId} {d inum : Nat} {E : Stop → Prop}
  {name : Name} {type major minor : Int16} {Q : InodeId → Sys → Prop}

/-! ## Allocation, update, entry -/

theorem ialloc_wp (h : Coherent c k fs R) (hE : ∀ e, E e)
    (hQ : ∀ ip i k', 1 ≤ i → i < c.sb.ninodes → (fs.ino i).type = 0 →
      Coherent c k' (fs.setIno i (Dinode.fresh type)) (⟨ip, i, false⟩ ::ₘ R) → Q ip k') :
    Wp E (ialloc ROOTDEV type) Q k := by
  unfold ialloc
  rw [Wp.bind_iff, getSb_wp, Wp.bind_iff, lift_wp, h.sb_eq]
  refine iallocSearch_wp h.holds (.lax hE) (by intro j hj; simp at hj) (by simp) type ?_ ?_
  · intro i t h1 hi hfree ht hf _ _
    -- a copy in the cache has a type, so none is a copy of this inode
    have hne : ∀ jp, R.users jp ≠ 0 → (k.icache jp).valid = true → (k.icache jp).inum ≠ i := by
      rintro jp hu hv rfl
      exact (h.copy jp hu hv).2 hfree
    have hk : Coherent c (k.withBlk t) (fs.setIno i (Dinode.fresh type)) R := by
      refine h.stepBlk ht hf (h.own.setEmpty hfree rfl) ?_ ?_
      · intro j hj
        by_cases hji : j = i
        · rw [hji]
          exact Mapped.empty rfl
        · exact (h.mapped j ((FS.live_setIno_ne hji).mp hj)).setIno_ne hji
      · exact fun jp hu hv => FS.setIno_ino_ne _ (hne jp hu hv)
    exact hk.iget_wp (.inl fun e _ => hE e) ⟨h1, hi⟩ fun ip k' hk' _ => hQ ip i k' h1 hi hfree hk'
  · exact fun _ _ => hE _

theorem iupdate_wp {Q : Unit → Sys → Prop} (h : Coherent c k fs (⟨ip, i, true⟩ ::ₘ R))
    (hE : ∀ e, E e)
    (haddrs : di.addrs = (fs.ino i).addrs) (hsize : di.size = (fs.ino i).size) (htype : di.type ≠ 0)
    (hQ : ∀ k', Coherent c k' (fs.setIno i di) (⟨ip, i, true⟩ ::ₘ R) → Q () k') :
    Wp E (iupdate ip) Q (k.upd k.blk ip di) := by
  have hlive := h.locked.2
  have hown : Own c.sb (fs.setIno i (fs.ino i)) := by
    rw [FS.setIno_eq_self rfl]
    exact h.own
  have hslot : ∀ m, (fs.setIno i di).slot i m = fs.slot i m := fun m =>
    FS.slot_congr (by rw [FS.setIno_ino_self]; exact haddrs) fun _ => rfl
  have hb : k.blk.Holds k.sb fs [] := by
    rw [h.sb_eq]
    exact h.holds
  refine Xv6.Kernel.iupdate_wp hb (.lax hE) h.entry.dev h.entry.inum
    (by rw [h.sb_eq]; exact hlive.2.1) ?_
  intro t ht hf _
  rw [h.sb_eq] at ht
  have hk := h.write ht hf (hown.relabel haddrs (iff_of_false htype hlive.2.2)) ?_
    (fun j hj => FS.setIno_ino_ne _ hj) (by rw [FS.setIno_ino_self]; exact htype)
  · rw [FS.setIno_ino_self] at hk
    exact hQ _ hk
  intro j hj
  rcases eq_or_ne j i with rfl | hji
  · have hmap := h.mapped j hlive
    refine ⟨?_, fun n hn => ?_⟩
    · rw [FS.setIno_ino_self, hsize]
      exact hmap.small
    rw [FS.setIno_ino_self, hsize] at hn
    rw [hslot]
    exact hmap.mapped n hn
  · exact (h.mapped j ((FS.live_setIno_ne hji).mp hj)).setIno_ne hji

theorem dirlink_wp {Q : Bool → Sys → Prop} (h : Coherent c k fs (⟨dp, d, true⟩ ::ₘ R))
    (hE : ∀ e, E e) (hdir : fs.Dir d)
    (hnew : fs.lookup d name = none)
    (hQ : ∀ k' fs', Relinked c.sb fs fs' d (SlotTable.free (fs.table d)) (Dirent.entry name inum) →
      Coherent c k' fs' (⟨dp, d, true⟩ ::ₘ R) → Q true k') : Wp E (dirlink dp name inum) Q k := by
  refine Xv6.Kernel.dirlink_wp h.hasInode hdir (.lax hE) (.inl fun e _ => hE e)
    (fun _ => hE _) ?_ ?_
  · intro t v hv
    rw [hnew] at hv
    cases hv
  intro t fs' _ hk' hf hre
  have hholds := hk'.holds
  have hown := hk'.own
  rw [Sys.upd_sb, h.sb_eq] at hown
  rw [Sys.upd_blk, Sys.upd_sb, h.sb_eq] at hholds
  rw [h.sb_eq] at hre
  refine hQ _ fs' hre (h.write hholds hf hown ?_ hre.other ?_)
  · intro j hj
    by_cases hji : j = d
    · rw [hji]
      exact hk'.mapped
    have hlive : fs.live c.sb j := by
      unfold FS.live at hj ⊢
      rwa [hre.other j hji] at hj
    have hmap := h.mapped j hlive
    refine ⟨?_, fun n hn => ?_⟩
    · rw [hre.other j hji]
      exact hmap.small
    rw [hre.other j hji] at hn
    have hn' := hmap.mapped n hn
    have hlt : n < MAXFILE := by
      have hsmall := hmap.small
      by_contra hge
      have hmul := Nat.mul_le_mul_right BSIZE (Nat.le_of_not_lt hge)
      omega
    rw [hre.same j _ hji hlive (fileSlot_lt hlt)]
    exact hn'
  · rw [hre.self]
    exact h.locked.2.2.2

theorem createNew_wp {Q : Option InodeId → Sys → Prop} (h : Coherent c k fs (⟨dp, d, true⟩ ::ₘ R))
    (hE : ∀ e, E e)
    (hl : ∀ ip, R.lockers ip = 0) (hheld : NoOrphans c.sb fs R) (hdir : fs.Dir d)
    (hnew : fs.lookup d name = none) (h0 : type ≠ 0) (hnot : type ≠ T_DIR)
    (hQ : ∀ ip i k' fs', 1 ≤ i → i < c.sb.ninodes → (fs.ino i).type = 0 →
      (fs'.ino i).type = type → (fs'.ino i).nlink = 1 →
      Coherent c k' fs' (⟨ip, i, true⟩ ::ₘ R) → Q (some ip) k') :
    Wp E (createNew dp name type major minor) Q k := by
  have hd := h.locked.2
  unfold createNew
  rw [Wp.bind_iff, getInode_wp, Wp.bind_iff, h.entry.dev]
  refine h.ialloc_wp hE fun ip i k₁ h1 hi hfree hk1 => ?_
  have hdi : d ≠ i := by
    rintro rfl
    exact hd.2.2 hfree
  have hip : ip ≠ dp := by
    rintro rfl
    have hdp := (hk1.names ⟨ip, d, true⟩ (by simp)).inum
    exact hdi (hdp.symm.trans hk1.entry.inum)
  refine Wp.bind (hk1.ilock_wp (.lax hE) ?_ ⟨h1, hi, ?_⟩ fun k₂ hk2 _ => ?_)
  · rw [Refs.lockers_cons_ne hip]
    exact hl ip
  · rw [FS.setIno_ino_self]
    exact h0
  rw [Wp.bind_iff, ← Sys.upd_self k₂ ip, hk2.locked.1, modifyDinode_wp, Wp.bind_iff,
    FS.setIno_ino_self]
  refine hk2.iupdate_wp hE ?_ ?_ h0 fun k3 hk3 => ?_
  · rw [FS.setIno_ino_self]
  · rw [FS.setIno_ino_self]
  rw [FS.setIno_setIno] at hk3
  unfold createDotsIfDir
  rw [if_neg hnot, Wp.bind_iff, Wp.pure_iff, Wp.bind_iff, getInode_wp, Wp.bind_iff]
  rw [Multiset.cons_swap] at hk3
  refine hk3.dirlink_wp hE (hdir.setIno_ne hdi) ?_ fun k4 fs' hre hk4 => ?_
  · rw [FS.lookup_setIno_ne hdi]
    exact hnew
  have hkeep : Refs.users (⟨ip, i, true⟩ ::ₘ R) dp ≠ 0 ∨ (fs'.ino d).nlink ≠ 0 := by
    refine (h.keeps hheld hd).imp (fun hu => ?_) fun hlink => ?_
    · rw [Refs.users_cons]
      omega
    · rw [hre.self, FS.setIno_ino_ne _ hdi]
      exact hlink
  rw [if_pos rfl]
  refine Wp.bind (hk4.iunlockput_wp hkeep fun k5 hk5 _ => ?_)
  rw [Wp.pure_iff]
  have hino := hre.other i (Ne.symm hdi)
  rw [FS.setIno_ino_self] at hino
  refine hQ ip i k5 fs' h1 hi hfree ?_ ?_ hk5
  · rw [hino]
    rfl
  · rw [hino]

end

end Coherent

end Xv6.Kernel
