import Xv6.Proofs.Icache
import Xv6.Proofs.Op
/-!
# Taking and giving back references to inodes

One rule for each of `iget`, `idup`, `ilock`, `iunlock` and `iput`, in terms of the
multiset of references.
-/

namespace Xv6.Kernel

open Xv6.Lib Multiset
open Blk

variable {R : Refs} {ip : InodeId} {i : Nat}

namespace Refs

variable {jp : InodeId} {l : Bool}

theorem users_cons_self : users (⟨ip, i, l⟩ ::ₘ R) ip = users R ip + 1 := by
  rw [users_cons, if_pos rfl]

theorem away_cons : away (⟨ip, i, l⟩ ::ₘ R) ip = away R ip := filter_cons_of_neg _ (not_not.mpr rfl)

theorem lockers_cons_free : lockers (⟨ip, i, false⟩ ::ₘ R) jp = lockers R jp := by
  rw [lockers_cons]
  simp

theorem lockers_cons_self : lockers (⟨ip, i, true⟩ ::ₘ R) ip = lockers R ip + 1 := by
  rw [lockers_cons]
  simp

theorem lockers_cons_ne (h : jp ≠ ip) : lockers (⟨ip, i, l⟩ ::ₘ R) jp = lockers R jp := by
  rw [lockers_cons, if_neg (fun hx => h hx.1.symm), Nat.add_zero]

/-- The stop for want of a cache entry is let through, or `n` entries are not in use. -/
def Spare (E : Stop → Prop) (R : Refs) (n : Nat) : Prop :=
  Tolerant E ∨ ∃ S : Finset InodeId, n ≤ S.card ∧ ∀ ip ∈ S, R.users ip = 0

theorem Spare.mono {E : Stop → Prop} {m n : Nat} (h : R.Spare E n) (hm : m ≤ n) : R.Spare E m :=
  h.imp_right fun ⟨S, hn, hS⟩ => ⟨S, hm.trans hn, hS⟩

theorem Spare.cons {E : Stop → Prop} {n : Nat} {r : Ref} (h : R.Spare E (n + 1)) :
    Refs.Spare E (r ::ₘ R) n := by
  refine h.imp_right fun ⟨S, hn, hS⟩ => ⟨S.erase r.ip, ?_, fun jp hj => ?_⟩
  · have hcard := Finset.pred_card_le_card_erase (a := r.ip) (s := S)
    omega
  · obtain ⟨hne, hmem⟩ := Finset.mem_erase.mp hj
    rw [users_cons, if_neg (Ne.symm hne), hS jp hmem]

end Refs

namespace Coherent

section

variable {c : Env} {k : Sys} {fs fs' : FS} {E : Stop → Prop} {Q : Unit → Sys → Prop} {R' : Refs}
  {x : Inode} {t : Blk}

theorem unused_of_ref (h : Coherent c k fs R) (hz : (k.icache ip).ref = 0) : R.users ip = 0 := by
  have href := h.ref ip
  omega

theorem lockers_of_users (hz : R.users ip = 0) : R.lockers ip = 0 :=
  Nat.le_zero.mp (hz ▸ Refs.lockers_le_users R ip)

theorem stepEntry (h : Coherent c k fs R) (hx : Change c k fs R R' ip x) :
    Coherent c (k.setInode ip x) fs R' :=
  h.step (t := k.blk) h.holds (Frame.refl _) h.own h.mapped hx fun _ _ _ _ => rfl

theorem stepBlk (h : Coherent c k fs R) (ht : t.Holds c.sb fs' [])
    (hf : Frame k.blk t) (hown : Own c.sb fs') (hmap : ∀ j, fs'.live c.sb j → Mapped fs' j)
    (hino : ∀ jp, R.users jp ≠ 0 → (k.icache jp).valid = true →
      fs'.ino (k.icache jp).inum = fs.ino (k.icache jp).inum) : Coherent c (k.withBlk t) fs' R := by
  have hzero : 0 < NINODE := by decide
  have hself : (k.withBlk t).setInode ⟨0, hzero⟩ (k.icache ⟨0, hzero⟩) = k.withBlk t := by
    unfold Sys.setInode Sys.withBlk
    simp only [Function.update_eq_self]
  rw [← hself]
  refine h.step ht hf hown hmap ⟨rfl, h.ref _, h.lock _, h.alone _, ?_, ?_, ?_⟩ fun jp _ => hino jp
  · intro r hr hrip
    exact hrip ▸ h.names r hr
  · intro hu jp hj huj heq
    exact hj (h.key jp _ huj hu heq)
  intro hu hv
  rw [hino _ hu hv]
  exact h.copy _ hu hv

theorem write (h : Coherent c k fs (⟨ip, i, true⟩ ::ₘ R))
    (ht : t.Holds c.sb fs' []) (hf : Frame k.blk t) (hown : Own c.sb fs')
    (hmap : ∀ j, fs'.live c.sb j → Mapped fs' j) (hother : ∀ j, j ≠ i → fs'.ino j = fs.ino j)
    (htype : (fs'.ino i).type ≠ 0) :
    Coherent c (k.upd t ip (fs'.ino i)) fs' (⟨ip, i, true⟩ ::ₘ R) := by
  have hinum := h.entry.inum
  refine h.step ht hf hown hmap ⟨rfl, h.ref ip, h.lock ip, h.alone ip, ?_, ?_, ?_⟩ ?_
  · intro r hr hrip
    have hr' := h.names r hr
    rw [hrip] at hr'
    exact ⟨hr'.dev, hr'.inum, hr'.range, hr'.valid⟩
  · intro hu jp hj huj heq
    exact hj (h.key jp ip huj hu heq)
  · intro _ _
    change fs'.ino i = fs'.ino (k.icache ip).inum ∧ (fs'.ino (k.icache ip).inum).type ≠ 0
    rw [hinum]
    exact ⟨rfl, htype⟩
  · intro jp hj hu _
    refine hother _ fun heq => hj ?_
    exact h.key jp ip hu (by simp) (heq.trans hinum.symm)

section

variable (h : Coherent c k fs R)
include h

theorem addRef (hused : R.users ip ≠ 0) (hi : (k.icache ip).inum = i) :
    Coherent c (k.setInode ip { k.icache ip with ref := (k.icache ip).ref + 1 }) fs
      (⟨ip, i, false⟩ ::ₘ R) := by
  obtain ⟨r0, hr0, hip⟩ := Refs.users_ne_zero.mp hused
  have he := h.names r0 hr0
  rw [hip] at he
  refine h.stepEntry ⟨Refs.away_cons, ?_, ?_, ?_, ?_, ?_, ?_⟩
  · rw [Refs.users_cons_self]
    change (k.icache ip).ref + 1 = _
    rw [h.ref]
    rfl
  · rw [Refs.lockers_cons_free]
    exact h.lock ip
  · rw [Refs.lockers_cons_free]
    exact h.alone ip
  · intro r hr hrip
    rcases mem_cons.mp hr with rfl | hr
    · refine ⟨he.dev, hi, ?_, fun hx => by cases hx⟩
      rw [← hi, he.inum]
      exact he.range
    · have hr' := h.names r hr
      rw [hrip] at hr'
      exact ⟨hr'.dev, hr'.inum, hr'.range, hr'.valid⟩
  · intro _ jp hj hu heq
    exact hj (h.key jp ip hu hused heq)
  · intro _ hv
    exact h.copy ip hused hv

theorem takeEntry (hfree : R.users ip = 0) (hi : 1 ≤ i ∧ i < c.sb.ninodes)
    (hkey : ∀ jp, R.users jp ≠ 0 → (k.icache jp).inum ≠ i) : Coherent c (k.setInode ip
        { k.icache ip with dev := ROOTDEV, inum := i, ref := 1, valid := false }) fs
      (⟨ip, i, false⟩ ::ₘ R) := by
  have hlockers := lockers_of_users hfree
  refine h.stepEntry ⟨Refs.away_cons, ?_, ?_, ?_, ?_, ?_, ?_⟩
  · rw [Refs.users_cons_self, hfree]
    rfl
  · rw [Refs.lockers_cons_free]
    exact h.lock ip
  · rw [Refs.lockers_cons_free, hlockers]
    exact Nat.zero_le 1
  · intro r hr hrip
    rcases mem_cons.mp hr with rfl | hr
    · exact ⟨rfl, rfl, hi, fun hx => by cases hx⟩
    · exact absurd hfree (Refs.users_ne_zero.mpr ⟨r, hr, hrip⟩)
  · intro _ jp _ hu
    exact hkey jp hu
  · intro _ hv
    cases hv

theorem iget_wp (hE : R.Spare E 1) (hi : 1 ≤ i ∧ i < c.sb.ninodes)
    {Q : InodeId → Sys → Prop} (hQ : ∀ ip k', Coherent c k' fs (⟨ip, i, false⟩ ::ₘ R) →
      k'.blk.log = k.blk.log → Q ip k') : Wp E (iget ROOTDEV i) Q k := by
  unfold iget
  rw [Wp.bind_iff, Wp.get_iff]
  cases hc : k.cached ROOTDEV i with
  | some ip =>
    have hfound := List.find?_some hc
    simp only [Bool.and_eq_true, decide_eq_true_eq] at hfound
    have hused : R.users ip ≠ 0 := by
      have href := h.ref ip
      omega
    have hinum : (k.icache ip).inum = i := by simpa using hfound.2
    simp only
    rw [Wp.bind_iff, putInode_wp, Wp.pure_iff]
    exact hQ ip _ (h.addRef hused hinum) rfl
  | none =>
    have hnone := List.find?_eq_none.mp hc
    have hkey : ∀ jp, R.users jp ≠ 0 → (k.icache jp).inum ≠ i := by
      intro jp hu heq
      obtain ⟨r, hr, rfl⟩ := Refs.users_ne_zero.mp hu
      refine hnone r.ip (List.mem_finRange _) ?_
      have href := h.ref r.ip
      have hpos : 0 < (k.icache r.ip).ref := by omega
      simp [hpos, (h.names r hr).dev, heq]
    cases he : k.emptyEntry with
    | some ip =>
      have hzero := List.find?_some he
      have hz : R.users ip = 0 := h.unused_of_ref (by simpa using hzero)
      simp only
      rw [Wp.bind_iff, putInode_wp, Wp.pure_iff]
      exact hQ ip _ (h.takeEntry hz hi hkey) rfl
    | none =>
      rcases hE with hE | ⟨S, hone, hS⟩
      · exact hE _ rfl
      obtain ⟨ip, hip⟩ := Finset.card_pos.mp hone
      have hz := hS ip hip
      have hused := List.find?_eq_none.mp he ip (List.mem_finRange _)
      simp [h.ref, hz] at hused

theorem idup_wp {l : Bool} (hr : (⟨ip, i, l⟩ : Ref) ∈ R) {Q : InodeId → Sys → Prop}
    (hQ : ∀ k', Coherent c k' fs (⟨ip, i, false⟩ ::ₘ R) → k'.blk.log = k.blk.log → Q ip k') :
    Wp E (idup ip) Q k := by
  unfold idup
  rw [Wp.bind_iff, getInode_wp, Wp.bind_iff, putInode_wp, Wp.pure_iff]
  exact hQ _ (h.addRef (Refs.users_ne_zero.mpr ⟨_, hr, rfl⟩) (h.names _ hr).inum) rfl

end

theorem free (h : Coherent c k fs (⟨ip, i, false⟩ ::ₘ R)) (hl : R.lockers ip = 0) :
    (k.icache ip).Free fs i where
  dev := h.entry.dev
  inum := h.entry.inum
  ref := by
    rw [h.ref, Refs.users_cons_self]
    omega
  unlocked := by
    rw [h.lock, Refs.lockers_cons_free, hl]
    rfl
  copy := fun hv => (h.copy_of_ref hv).1

theorem ilock_wp (h : Coherent c k fs (⟨ip, i, false⟩ ::ₘ R)) (hE : Supply E k.blk 0)
    (hl : R.lockers ip = 0) (hlive : fs.live c.sb i)
    (hQ : ∀ k', Coherent c k' fs (⟨ip, i, true⟩ ::ₘ R) → k'.blk.log = k.blk.log → Q () k') :
    Wp E (ilock ip) Q k := by
  have hfree := h.free hl
  refine Xv6.Kernel.ilock_wp (by rw [h.sb_eq]; exact h.holds) hE hfree
    (by rw [h.sb_eq]; exact hlive) ?_
  intro t ht hf hlog
  rw [h.sb_eq] at ht
  refine hQ _ (h.step ht hf h.own h.mapped
    ⟨Refs.away_cons.trans Refs.away_cons.symm, ?_, ?_, ?_, ?_, ?_, ?_⟩ fun _ _ _ _ => rfl) hlog
  · rw [Refs.users_cons]
    have href := h.ref ip
    rw [Refs.users_cons] at href
    exact href
  · rw [Refs.lockers_cons_self, hl]
    change some k.blk.pid = _
    rw [h.pid_eq]
    rfl
  · rw [Refs.lockers_cons_self, hl]
  · intro r hr hrip
    rcases mem_cons.mp hr with rfl | hr
    · exact ⟨hfree.dev, hfree.inum, h.entry.range, fun _ => rfl⟩
    have hr' := h.names r (mem_cons_of_mem hr)
    rw [hrip] at hr'
    exact ⟨hr'.dev, hr'.inum, hr'.range, fun _ => rfl⟩
  · intro _ jp hj hu heq
    exact hj (h.key jp ip hu (by simp) heq)
  · intro _ _
    change fs.ino i = fs.ino (k.icache ip).inum ∧ (fs.ino (k.icache ip).inum).type ≠ 0
    rw [hfree.inum]
    exact ⟨rfl, hlive.2.2⟩

theorem iunlock_wp (h : Coherent c k fs (⟨ip, i, true⟩ ::ₘ R))
    (hQ : ∀ k', Coherent c k' fs (⟨ip, i, false⟩ ::ₘ R) → k'.blk.log = k.blk.log → Q () k') :
    Wp E (iunlock ip) Q k := by
  have hl : R.lockers ip = 0 := by
    have hone := h.alone ip
    rw [Refs.lockers_cons_self] at hone
    omega
  have hlock : (k.icache ip).lock = some k.blk.pid := by
    rw [h.lock, Refs.lockers_cons_self, hl, h.pid_eq]
    rfl
  have href : 1 ≤ (k.icache ip).ref := by
    rw [h.ref, Refs.users_cons_self]
    omega
  refine Xv6.Kernel.iunlock_wp hlock href (hQ _ (h.stepEntry
    ⟨Refs.away_cons.trans Refs.away_cons.symm, ?_, ?_, ?_, ?_, ?_, ?_⟩) rfl)
  · have hcount := h.ref ip
    rw [Refs.users_cons] at hcount ⊢
    exact hcount
  · rw [Refs.lockers_cons_free, hl]
    rfl
  · rw [Refs.lockers_cons_free, hl]
    exact Nat.zero_le 1
  · intro r hr hrip
    rcases mem_cons.mp hr with rfl | hr
    · exact ⟨h.entry.dev, h.entry.inum, h.entry.range, fun hx => by cases hx⟩
    have hr' := h.names r (mem_cons_of_mem hr)
    rw [hrip] at hr'
    exact ⟨hr'.dev, hr'.inum, hr'.range, hr'.valid⟩
  · intro _ jp hj hu heq
    exact hj (h.key jp ip hu (by simp) heq)
  · intro _ hv
    exact h.copy ip (by simp) hv

/-- `iput` of a reference that is not the last, or whose inode has not been read or
has a link. -/
theorem iput_wp (h : Coherent c k fs (⟨ip, i, false⟩ ::ₘ R))
    (hkeep : R.users ip ≠ 0 ∨ (k.icache ip).valid = false ∨ (fs.ino i).nlink ≠ 0)
    (hQ : ∀ k', Coherent c k' fs R → k'.blk.log = k.blk.log → Q () k') : Wp E (iput ip) Q k := by
  have hcount := h.ref ip
  rw [Refs.users_cons_self] at hcount
  unfold iput ifreeIfLast
  rw [Wp.bind_iff, Wp.bind_iff, getInode_wp, if_neg]
  · rw [Wp.pure_iff, Wp.bind_iff, getInode_wp, putInode_wp]
    refine hQ _ (h.stepEntry ⟨Refs.away_cons.symm, ?_, ?_, ?_, ?_, ?_, ?_⟩) rfl
    · change (k.icache ip).ref - 1 = _
      omega
    · have hlock := h.lock ip
      rw [Refs.lockers_cons_free] at hlock
      exact hlock
    · have halone := h.alone ip
      rw [Refs.lockers_cons_free] at halone
      exact halone
    · intro r hr hrip
      have hr' := h.names r (mem_cons_of_mem hr)
      rw [hrip] at hr'
      exact ⟨hr'.dev, hr'.inum, hr'.range, hr'.valid⟩
    · intro _ jp hj hu heq
      exact hj (h.key jp ip hu (by simp) heq)
    · intro _ hv
      exact h.copy ip (by simp) hv
  · rintro ⟨hone, hvalid, hlink⟩
    rcases hkeep with hused | hinv | hnlink
    · omega
    · rw [hinv] at hvalid
      cases hvalid
    · rw [(h.copy_of_ref hvalid).1] at hlink
      exact hnlink hlink

theorem iunlockput_wp (h : Coherent c k fs (⟨ip, i, true⟩ ::ₘ R))
    (hkeep : R.users ip ≠ 0 ∨ (fs.ino i).nlink ≠ 0)
    (hQ : ∀ k', Coherent c k' fs R → k'.blk.log = k.blk.log → Q () k') :
    Wp E (iunlockput ip) Q k := by
  unfold iunlockput
  rw [Wp.bind_iff]
  refine h.iunlock_wp fun k' hk' hlog => hk'.iput_wp (hkeep.imp_right .inr) fun k'' hk'' hlog' => ?_
  exact hQ k'' hk'' (hlog'.trans hlog)

end

end Coherent

end Xv6.Kernel
