import Xv6.Lib.Ownership
import Xv6.Proofs.Alloc
/-!
# Who owns which block

The block numbers of an inode are its slots: the entries of `addrs`, the last
of which is the indirect block, and the entries of the indirect block.  `Own`
says that the slots of the allocated inodes own the blocks in use.
-/

namespace Xv6.Kernel

open Xv6.Lib Function

variable {n m : Nat}

def NSLOT : Nat := NDIRECT + 1 + NINDIRECT

def fileSlot (n : Nat) : Nat := if n < NDIRECT then n else n + 1

theorem fileSlot_ne (n : Nat) : fileSlot n ≠ NDIRECT := by
  unfold fileSlot
  split
  · omega
  · omega

theorem fileSlot_lt (h : n < MAXFILE) : fileSlot n < NSLOT := by
  unfold fileSlot NSLOT
  unfold MAXFILE at h
  split
  · omega
  · omega

theorem fileSlot_inj (h : fileSlot n = fileSlot m) : n = m := by
  unfold fileSlot at h
  split at h
  · split at h
    · exact h
    · omega
  · split at h
    · omega
    · omega

namespace FS

def live (fs : FS) (sb : Superblock) (i : Nat) : Prop :=
  1 ≤ i ∧ i < sb.ninodes ∧ (fs.ino i).type ≠ 0

instance (fs : FS) (sb : Superblock) (i : Nat) : Decidable (fs.live sb i) :=
  inferInstanceAs (Decidable (_ ∧ _ ∧ _))

/-- The block number in slot `k` of inode `i`; zero for none. -/
def slot (fs : FS) (i k : Nat) : Nat :=
  if k ≤ NDIRECT then ((fs.ino i).addrs.get k).toNat
  else if (fs.ino i).addrs.get NDIRECT = 0 then 0
  else ((fs.data ((fs.ino i).addrs.get NDIRECT).toNat).u32 (4 * (k - (NDIRECT + 1)))).toNat

def owner (fs : FS) (sb : Superblock) (p : Nat × Nat) : Option Nat :=
  if fs.live sb p.1 ∧ p.2 < NSLOT ∧ fs.slot p.1 p.2 ≠ 0 then some (fs.slot p.1 p.2) else none

end FS

/-- No block is owned twice, the used blocks are the metadata and the owned
ones, and no stale copy of an indirect block is cached. -/
structure Own (sb : Superblock) (fs : FS) : Prop where
  alloc : Allocation (fs.owner sb) (fun b => b < sb.size ∧ fs.used b = true)
    (fun b => b < sb.datastart)
  clean : ∀ i, fs.live sb i → fs.slot i NDIRECT ≠ 0 → ¬fs.stale (fs.slot i NDIRECT)

section

variable {sb : Superblock} {fs : FS} {i j k l b : Nat}

theorem FS.owner_some (hi : fs.live sb i) (hk : k < NSLOT) (h0 : fs.slot i k ≠ 0) :
    fs.owner sb (i, k) = some (fs.slot i k) := by
  unfold FS.owner
  exact if_pos ⟨hi, hk, h0⟩

theorem FS.owner_none (h0 : fs.slot i k = 0) : fs.owner sb (i, k) = none := by
  unfold FS.owner
  exact if_neg fun h => h.2.2 h0

theorem FS.owner_dead (hi : ¬fs.live sb i) : fs.owner sb (i, k) = none := by
  unfold FS.owner
  exact if_neg fun h => hi h.1

theorem FS.slot_direct (hk : k ≤ NDIRECT) : fs.slot i k = ((fs.ino i).addrs.get k).toNat := by
  unfold FS.slot
  exact if_pos hk

theorem FS.slot_entry (hk : NDIRECT < k) (ha : fs.slot i NDIRECT ≠ 0) :
    fs.slot i k = ((fs.data (fs.slot i NDIRECT)).u32 (4 * (k - (NDIRECT + 1)))).toNat := by
  rw [FS.slot_direct le_rfl] at ha ⊢
  unfold FS.slot
  rw [if_neg (by omega), if_neg]
  intro h
  rw [h] at ha
  exact ha rfl

theorem FS.slot_entry_zero (hk : NDIRECT < k) (ha : fs.slot i NDIRECT = 0) : fs.slot i k = 0 := by
  rw [FS.slot_direct le_rfl] at ha
  unfold FS.slot
  rw [if_neg (by omega), if_pos]
  rw [← UInt32.toNat_inj]
  exact ha

namespace Own

section

variable (h : Own sb fs) {fs' : FS}
include h

theorem slot_used (hi : fs.live sb i) (hk : k < NSLOT) (h0 : fs.slot i k ≠ 0) :
    fs.used (fs.slot i k) = true :=
  (h.alloc.used_of_own (FS.owner_some hi hk h0)).2

theorem isData (hi : fs.live sb i) (hk : k < NSLOT) (h0 : fs.slot i k ≠ 0) :
    sb.isData (fs.slot i k) := by
  have hown := FS.owner_some hi hk h0
  exact ⟨Nat.le_of_not_lt (h.alloc.apart _ _ hown), (h.alloc.used_of_own hown).1⟩

theorem eq_of_slot (hi : fs.live sb i) (hj : fs.live sb j) (hk : k < NSLOT)
    (hl : l < NSLOT) (h0 : fs.slot i k ≠ 0) (he : fs.slot j l = fs.slot i k) : j = i ∧ l = k := by
  have hown := FS.owner_some hi hk h0
  have hown' := FS.owner_some hj hl (he ▸ h0)
  rw [he] at hown'
  exact Prod.mk.inj (h.alloc.inj _ _ _ hown' hown)

theorem meta_used (hb : b < sb.datastart) : fs.used b = true :=
  (h.alloc.used_of_fixed hb).2

theorem slot_ne_of_clear (hi : fs.live sb i) (hk : k < NSLOT)
    (hb : fs.used b = false) (hb0 : b ≠ 0) : fs.slot i k ≠ b := by
  intro he
  have hu := h.slot_used hi hk (he ▸ hb0)
  rw [he, hb] at hu
  exact Bool.false_ne_true hu

theorem fileSlot_ne_indirect (hi : fs.live sb i) (hj : fs.live sb j)
    (hn : n < MAXFILE) (h0 : fs.slot j (fileSlot n) ≠ 0) :
    fs.slot i NDIRECT ≠ fs.slot j (fileSlot n) := by
  intro he
  exact fileSlot_ne n (h.eq_of_slot hj hi (fileSlot_lt hn) (by decide) h0 he).2.symm

theorem congr (hlive : ∀ i, fs'.live sb i ↔ fs.live sb i)
    (hslot : ∀ i k, fs.live sb i → k < NSLOT → fs'.slot i k = fs.slot i k)
    (hused : ∀ b, fs'.used b = fs.used b)
    (hstale : ∀ i, fs.live sb i → fs'.stale (fs.slot i NDIRECT) → fs.stale (fs.slot i NDIRECT)) :
    Own sb fs' where
  alloc := by
    apply h.alloc.congr
    · rintro ⟨i, k⟩
      unfold FS.owner
      by_cases hc : fs.live sb i ∧ k < NSLOT
      · simp only [hlive i, hslot i k hc.1 hc.2]
      · rw [if_neg (fun hx => hc ⟨(hlive i).mp hx.1, hx.2.1⟩), if_neg fun hx => hc ⟨hx.1, hx.2.1⟩]
    · intro b
      rw [hused]
  clean := by
    intro i hi h0 hs
    have hi' := (hlive i).mp hi
    rw [hslot i NDIRECT hi' (by decide)] at h0 hs
    exact h.clean i hi' h0 (hstale i hi' hs)

theorem attach (hi : fs.live sb i) (hk : k < NSLOT)
    (h0 : fs.slot i k = 0) (hb : sb.isData b) (hclear : fs.used b = false)
    (hlive : ∀ j, fs'.live sb j ↔ fs.live sb j) (hslot : ∀ j l, fs.live sb j → l < NSLOT →
      fs'.slot j l = if j = i ∧ l = k then b else fs.slot j l)
    (hused : ∀ c, fs'.used c = if c = b then true else fs.used c)
    (hstale : ∀ c, fs'.stale c → fs.stale c ∧ c ≠ b) : Own sb fs' where
  alloc := by
    have hpos : b ≠ 0 := by
      have hge : sb.datastart ≤ b := hb.1
      have hlt : sb.bmapstart < sb.datastart := Layout.bmapstart_lt
      omega
    have howner : fs'.owner sb = update (fs.owner sb) (i, k) (some b) := by
      funext ⟨j, l⟩
      by_cases hc : fs.live sb j ∧ l < NSLOT
      · by_cases he : j = i ∧ l = k
        · have hs : fs'.slot j l = b := by rw [hslot j l hc.1 hc.2, if_pos he]
          rw [FS.owner_some ((hlive j).mpr hc.1) hc.2 (by rw [hs]; exact hpos), hs, he.1, he.2,
            update_self]
        have hne : (j, l) ≠ (i, k) := fun hx => he (Prod.mk.inj hx)
        rw [update_of_ne hne]
        unfold FS.owner
        simp only [hlive j, hslot j l hc.1 hc.2, if_neg he]
      · have hne : (j, l) ≠ (i, k) := by
          intro hx
          rw [(Prod.mk.inj hx).1, (Prod.mk.inj hx).2] at hc
          exact hc ⟨hi, hk⟩
        rw [update_of_ne hne]
        unfold FS.owner
        rw [if_neg fun hx => hc ⟨(hlive j).mp hx.1, hx.2.1⟩, if_neg fun hx => hc ⟨hx.1, hx.2.1⟩]
    rw [howner]
    apply h.alloc.attach (FS.owner_none h0)
    · rintro ⟨_, hu⟩
      rw [hclear] at hu
      exact Bool.false_ne_true hu
    intro c
    rw [hused]
    by_cases hcb : c = b
    · simp [hcb, hb.2]
    · simp [hcb]
  clean := by
    intro j hj hj0 hs
    have hj' := (hlive j).mp hj
    rw [hslot j NDIRECT hj' (by decide)] at hj0 hs
    split at hs
    · exact (hstale b hs).2 rfl
    rename_i hne
    rw [if_neg hne] at hj0
    exact h.clean j hj' hj0 (hstale _ hs).1

end

end Own

end

end Xv6.Kernel
