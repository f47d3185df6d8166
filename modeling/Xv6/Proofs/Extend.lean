import Xv6.Proofs.Ownership
/-!
# Giving blocks to an inode

What `bmap` may do to the slots: fill an empty entry of `addrs`, or an empty
entry of the indirect block, with a fresh block.
-/

namespace Xv6.Kernel

open Xv6.Lib Function

def Dinode.setAddr (di : Dinode) (n : Nat) (x : UInt32) : Dinode :=
  { di with addrs := di.addrs.set n x }

section

variable {sb : Superblock} {fs : FS} {i j k b n : Nat}

theorem toNat_ofNat_of_isData (hl : Layout sb) (hb : sb.isData b) : (UInt32.ofNat b).toNat = b := by
  rw [UInt32.toNat_ofNat']
  exact Nat.mod_eq_of_lt (hl.small hb.2)

theorem Superblock.isData.ne_zero (hb : sb.isData b) : b ≠ 0 := by
  have hge : sb.datastart ≤ b := hb.1
  have hlt : sb.bmapstart < sb.datastart := Layout.bmapstart_lt
  omega

/-- `fs` with the fresh block `b` in entry `n` of `addrs`. -/
def FS.attachAddr (fs : FS) (i n b : Nat) : FS :=
  (fs.alloc b).setIno i ((fs.ino i).setAddr n (UInt32.ofNat b))

/-- `fs` with the fresh block `b` in entry `n` of the indirect block of inode
`i`. -/
def FS.attachEntry (fs : FS) (i n b : Nat) : FS :=
  (fs.alloc b).setBlock (fs.slot i NDIRECT)
    ((fs.data (fs.slot i NDIRECT)).setU32 (4 * n) (UInt32.ofNat b))

namespace FS

@[simp] theorem setIno_ino_self (di : Dinode) : (fs.setIno i di).ino i = di :=
  update_self ..

theorem setIno_ino_ne (di : Dinode) (h : j ≠ i) : (fs.setIno i di).ino j = fs.ino j :=
  update_of_ne h ..

@[simp] theorem setIno_setIno (di dj : Dinode) : (fs.setIno i di).setIno i dj = fs.setIno i dj := by
  unfold setIno
  simp only [update_idem]

theorem alloc_data_ne (h : j ≠ b) : (fs.alloc b).data j = fs.data j :=
  update_of_ne h ..

theorem alloc_data_self : (fs.alloc b).data b = Bytes.zero := update_self ..

theorem alloc_used (c : Nat) : (fs.alloc b).used c = if c = b then true else fs.used c := by
  by_cases hc : c = b
  · rw [if_pos hc, hc]
    exact update_self ..
  · rw [if_neg hc]
    exact update_of_ne hc ..

theorem slot_congr {fs' : FS} (ha : (fs'.ino i).addrs = (fs.ino i).addrs)
    (hd : fs.slot i NDIRECT ≠ 0 → fs'.data (fs.slot i NDIRECT) = fs.data (fs.slot i NDIRECT)) :
    fs'.slot i k = fs.slot i k := by
  have hind : fs'.slot i NDIRECT = fs.slot i NDIRECT := by
    rw [slot_direct le_rfl, slot_direct le_rfl, ha]
  by_cases hk : k ≤ NDIRECT
  · rw [slot_direct hk, slot_direct hk, ha]
  by_cases h0 : fs.slot i NDIRECT = 0
  · rw [slot_entry_zero (by omega) h0, slot_entry_zero (by omega) (hind.trans h0)]
  · rw [slot_entry (by omega) h0, slot_entry (by omega) (by rw [hind]; exact h0), hind, hd h0]

theorem slot_attachAddr (h : Own sb fs) (hl : Layout sb) (hb : sb.isData b)
    (hclear : fs.used b = false) (hn : n ≤ NDIRECT) (h0 : fs.slot i n = 0) (j k : Nat)
    (hj : fs.live sb j) (_hk : k < NSLOT) :
    (fs.attachAddr i n b).slot j k = if j = i ∧ k = n then b else fs.slot j k := by
  have hdata : (fs.attachAddr i n b).data (fs.slot j NDIRECT) = fs.data (fs.slot j NDIRECT) :=
    alloc_data_ne (h.slot_ne_of_clear hj (by decide) hclear hb.ne_zero)
  rcases eq_or_ne j i with rfl | hji
  · have hino : ((fs.attachAddr j n b).ino j).addrs =
        (fs.ino j).addrs.set n (UInt32.ofNat b) := by
      unfold attachAddr
      rw [setIno_ino_self]
      rfl
    have hget : ∀ m, ((fs.attachAddr j n b).ino j).addrs.get m =
        if m = n then UInt32.ofNat b else (fs.ino j).addrs.get m := by
      intro m
      rw [hino, Addrs.get_set (by omega)]
    by_cases hk : k ≤ NDIRECT
    · rw [slot_direct hk, hget]
      by_cases hkn : k = n
      · rw [if_pos hkn, if_pos ⟨rfl, hkn⟩, toNat_ofNat_of_isData hl hb]
      · rw [if_neg hkn, if_neg fun hx => hkn hx.2, slot_direct hk]
    rw [if_neg (by omega)]
    by_cases hn' : n = NDIRECT
    · -- the new indirect block is zeroed
      have hind : (fs.attachAddr j n b).slot j NDIRECT = b := by
        rw [slot_direct le_rfl, hget, if_pos hn'.symm, toNat_ofNat_of_isData hl hb]
      have hzero : (fs.attachAddr j n b).data b = Bytes.zero := alloc_data_self
      rw [slot_entry (by omega) (by rw [hind]; exact hb.ne_zero), hind, hzero, Bytes.u32_zero,
        slot_entry_zero (by omega) (hn' ▸ h0)]
      rfl
    · have hind : (fs.attachAddr j n b).slot j NDIRECT = fs.slot j NDIRECT := by
        rw [slot_direct le_rfl, hget, if_neg (Ne.symm hn'), slot_direct le_rfl]
      by_cases hz : fs.slot j NDIRECT = 0
      · rw [slot_entry_zero (by omega) (hind.trans hz), slot_entry_zero (by omega) hz]
      · rw [slot_entry (by omega) (by rw [hind]; exact hz), slot_entry (by omega) hz, hind, hdata]
  · rw [if_neg fun hx => hji hx.1]
    apply slot_congr
    · unfold attachAddr
      rw [setIno_ino_ne _ hji]
      rfl
    · exact fun _ => hdata

theorem slot_attachEntry (h : Own sb fs) (hl : Layout sb) (hi : fs.live sb i)
    (hb : sb.isData b) (hclear : fs.used b = false) (hn : n < NINDIRECT)
    (ha : fs.slot i NDIRECT ≠ 0) (j k : Nat) (hj : fs.live sb j) (_hk : k < NSLOT) :
    (fs.attachEntry i n b).slot j k =
      if j = i ∧ k = NDIRECT + 1 + n then b else fs.slot j k := by
  have haddrs : ((fs.attachEntry i n b).ino j).addrs = (fs.ino j).addrs := rfl
  by_cases hk' : k ≤ NDIRECT
  · rw [if_neg (by omega), slot_direct hk', slot_direct hk', haddrs]
  have hind : (fs.attachEntry i n b).slot j NDIRECT = fs.slot j NDIRECT := by
    rw [slot_direct le_rfl, slot_direct le_rfl, haddrs]
  rcases eq_or_ne j i with rfl | hji
  · have hself : (fs.attachEntry j n b).data (fs.slot j NDIRECT) =
        (fs.data (fs.slot j NDIRECT)).setU32 (4 * n) (UInt32.ofNat b) :=
      update_self ..
    rw [slot_entry (by omega) (by rw [hind]; exact ha), hind, hself]
    have hbs : BSIZE = 4 * NINDIRECT := rfl
    by_cases hkn : k = NDIRECT + 1 + n
    · rw [if_pos ⟨rfl, hkn⟩, show k - (NDIRECT + 1) = n by omega, Bytes.u32_setU32 (by omega),
        toNat_ofNat_of_isData hl hb]
    · rw [if_neg fun hx => hkn hx.2, Bytes.u32_setU32_ne (by omega),
        slot_entry (k := k) (by omega) ha]
  · rw [if_neg fun hx => hji hx.1]
    apply slot_congr haddrs
    intro hz
    -- the indirect block of another inode is neither this one nor fresh
    have hne : fs.slot j NDIRECT ≠ fs.slot i NDIRECT := by
      intro he
      exact hji (h.eq_of_slot hi hj (by decide) (by decide) ha he).1
    have hneb : fs.slot j NDIRECT ≠ b :=
      h.slot_ne_of_clear hj (by decide) hclear hb.ne_zero
    unfold attachEntry setBlock
    simp only
    rw [update_of_ne hne]
    exact alloc_data_ne hneb

theorem live_attachAddr (j : Nat) : (fs.attachAddr i n b).live sb j ↔ fs.live sb j := by
  unfold live attachAddr
  rcases eq_or_ne j i with rfl | hji
  · rw [setIno_ino_self]
    exact Iff.rfl
  · rw [setIno_ino_ne _ hji]
    exact Iff.rfl

end FS

theorem Own.attachAddr (h : Own sb fs) (hl : Layout sb) (hi : fs.live sb i) (hb : sb.isData b)
    (hclear : fs.used b = false) (hn : n ≤ NDIRECT) (h0 : fs.slot i n = 0) :
    Own sb (fs.attachAddr i n b) := by
  have hlt : n < NSLOT := Nat.lt_of_le_of_lt hn (by decide)
  refine h.attach hi hlt h0 hb hclear FS.live_attachAddr (FS.slot_attachAddr h hl hb hclear hn h0)
    FS.alloc_used ?_
  intro c hc
  exact hc

theorem Own.attachEntry (h : Own sb fs) (hl : Layout sb) (hi : fs.live sb i) (hb : sb.isData b)
    (hclear : fs.used b = false) (hn : n < NINDIRECT) (ha : fs.slot i NDIRECT ≠ 0)
    (h0 : fs.slot i (NDIRECT + 1 + n) = 0) : Own sb (fs.attachEntry i n b) := by
  have hlt : NDIRECT + 1 + n < NSLOT := by
    unfold NSLOT
    omega
  refine h.attach hi hlt h0 hb hclear (fun _ => Iff.rfl)
    (FS.slot_attachEntry h hl hi hb hclear hn ha) FS.alloc_used ?_
  intro c hc
  exact hc.1

/-! ## What `bmap` leaves -/

/-- `fs'` is `fs` with some empty slots of inode `i` filled. -/
structure Grows (sb : Superblock) (fs fs' : FS) (i : Nat) : Prop where
  own : Own sb fs'
  other : ∀ j, j ≠ i → fs'.ino j = fs.ino j
  self : fs'.ino i = { fs.ino i with addrs := (fs'.ino i).addrs }
  keep : ∀ j k, fs.live sb j → k < NSLOT → fs.slot j k ≠ 0 → fs'.slot j k = fs.slot j k
  same : ∀ j k, j ≠ i → fs.live sb j → k < NSLOT → fs'.slot j k = fs.slot j k
  stale : ∀ c, fs'.stale c → fs.stale c

variable {fs' fs'' : FS}

namespace Grows

theorem refl (h : Own sb fs) (i : Nat) : Grows sb fs fs i where
  own := h
  other := fun _ _ => rfl
  self := rfl
  keep := fun _ _ _ _ _ => rfl
  same := fun _ _ _ _ _ => rfl
  stale := fun _ hc => hc

theorem live (h : Grows sb fs fs' i) (j : Nat) : fs'.live sb j ↔ fs.live sb j := by
  unfold FS.live
  by_cases hji : j = i
  · rw [hji, h.self]
  · rw [h.other j hji]

theorem trans (h : Grows sb fs fs' i) (h' : Grows sb fs' fs'' i) : Grows sb fs fs'' i where
  own := h'.own
  other := fun j hj => (h'.other j hj).trans (h.other j hj)
  self := by
    rw [h'.self, h.self]
  keep := by
    intro j k hj hk h0
    have hs := h.keep j k hj hk h0
    rw [h'.keep j k ((h.live j).mpr hj) hk (by rw [hs]; exact h0), hs]
  same := by
    intro j k hji hj hk
    rw [h'.same j k hji ((h.live j).mpr hj) hk, h.same j k hji hj hk]
  stale := fun c hc => h.stale c (h'.stale c hc)

theorem attach (hown : Own sb fs') (hother : ∀ j, j ≠ i → fs'.ino j = fs.ino j)
    (hself : fs'.ino i = { fs.ino i with addrs := (fs'.ino i).addrs })
    (hslot : ∀ j k, fs.live sb j → k < NSLOT →
      fs'.slot j k = if j = i ∧ k = n then b else fs.slot j k)
    (h0 : fs.slot i n = 0) (hstale : ∀ c, fs'.stale c → fs.stale c) : Grows sb fs fs' i := by
  refine ⟨hown, hother, hself, ?_, ?_, hstale⟩
  · intro j k hj hk hne
    rw [hslot j k hj hk, if_neg]
    rintro ⟨rfl, rfl⟩
    exact hne h0
  · intro j k hji hj hk
    rw [hslot j k hj hk, if_neg fun hx => hji hx.1]

end Grows

/-- The slots are filled by fresh, zeroed blocks. -/
structure Extends (sb : Superblock) (fs fs' : FS) (i : Nat) : Prop extends Grows sb fs fs' i where
  data : ∀ j n, fs.live sb j → n < MAXFILE → fs.slot j (fileSlot n) ≠ 0 →
    fs'.data (fs.slot j (fileSlot n)) = fs.data (fs.slot j (fileSlot n))
  fresh : ∀ n, n < MAXFILE → fs.slot i (fileSlot n) = 0 → fs'.slot i (fileSlot n) ≠ 0 →
    fs'.data (fs'.slot i (fileSlot n)) = Bytes.zero ∧ ¬fs'.stale (fs'.slot i (fileSlot n))

namespace Extends

theorem refl (h : Own sb fs) (i : Nat) : Extends sb fs fs i where
  toGrows := .refl h i
  data := fun _ _ _ _ _ => rfl
  fresh := fun _ _ h0 hn => absurd h0 hn

theorem trans (h : Extends sb fs fs' i) (h' : Extends sb fs' fs'' i) (hi : fs.live sb i) :
    Extends sb fs fs'' i where
  toGrows := h.toGrows.trans h'.toGrows
  data := by
    intro j n hj hn h0
    have hs := h.keep j (fileSlot n) hj (fileSlot_lt hn) h0
    have hd := h'.data j n ((h.live j).mpr hj) hn (by rw [hs]; exact h0)
    rw [hs] at hd
    rw [hd, h.data j n hj hn h0]
  fresh := by
    intro n hn h0 h2
    by_cases h1 : fs'.slot i (fileSlot n) = 0
    · exact h'.fresh n hn h1 h2
    have hi' := (h.live i).mpr hi
    have hs := h'.keep i (fileSlot n) hi' (fileSlot_lt hn) h1
    obtain ⟨hz, hst⟩ := h.fresh n hn h0 h1
    rw [hs, h'.data i n hi' hn h1]
    exact ⟨hz, fun hx => hst (h'.stale _ hx)⟩

theorem attachAddr (h : Own sb fs) (hl : Layout sb) (hi : fs.live sb i) (hb : sb.isData b)
    (hclear : fs.used b = false) (hn : n ≤ NDIRECT) (h0 : fs.slot i n = 0) :
    Extends sb fs (fs.attachAddr i n b) i := by
  have hslot := FS.slot_attachAddr h hl hb hclear hn h0
  refine ⟨.attach (h.attachAddr hl hi hb hclear hn h0) (fun j hj => FS.setIno_ino_ne _ hj) ?_
    hslot h0 fun c hc => hc.1, ?_, ?_⟩
  · unfold FS.attachAddr
    rw [FS.setIno_ino_self]
    rfl
  · intro j m hj hm hne
    exact FS.alloc_data_ne (h.slot_ne_of_clear hj (fileSlot_lt hm) hclear hb.ne_zero)
  intro m hm hz hne
  rw [hslot i _ hi (fileSlot_lt hm)] at hne ⊢
  by_cases he : i = i ∧ fileSlot m = n
  · rw [if_pos he]
    exact ⟨FS.alloc_data_self, fun hx => hx.2 rfl⟩
  · rw [if_neg he] at hne
    exact absurd hz hne

theorem attachEntry (h : Own sb fs) (hl : Layout sb) (hi : fs.live sb i) (hb : sb.isData b)
    (hclear : fs.used b = false) (hn : n < NINDIRECT) (ha : fs.slot i NDIRECT ≠ 0)
    (h0 : fs.slot i (NDIRECT + 1 + n) = 0) : Extends sb fs (fs.attachEntry i n b) i := by
  have hslot := FS.slot_attachEntry h hl hi hb hclear hn ha
  have hab : fs.slot i NDIRECT ≠ b := h.slot_ne_of_clear hi (by decide) hclear hb.ne_zero
  refine ⟨.attach (h.attachEntry hl hi hb hclear hn ha h0) (fun _ _ => rfl) rfl hslot h0
    fun c hc => hc.1.1, ?_, ?_⟩
  · intro j m hj hm hne
    have hne' : fs.slot j (fileSlot m) ≠ fs.slot i NDIRECT :=
      (h.fileSlot_ne_indirect hi hj hm hne).symm
    have hneb : fs.slot j (fileSlot m) ≠ b :=
      h.slot_ne_of_clear hj (fileSlot_lt hm) hclear hb.ne_zero
    unfold FS.attachEntry FS.setBlock
    simp only
    rw [update_of_ne hne']
    exact FS.alloc_data_ne hneb
  · intro m hm hz hne
    rw [hslot i _ hi (fileSlot_lt hm)] at hne ⊢
    by_cases he : i = i ∧ fileSlot m = NDIRECT + 1 + n
    · rw [if_pos he]
      refine ⟨?_, fun hx => hx.1.2 rfl⟩
      unfold FS.attachEntry FS.setBlock
      simp only
      rw [update_of_ne hab.symm]
      exact FS.alloc_data_self
    · rw [if_neg he] at hne
      exact absurd hz hne

end Extends

end

end Xv6.Kernel
