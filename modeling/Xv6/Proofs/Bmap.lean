import Xv6.Proofs.Extend
/-!
# `bmap` and `iupdate`

The in-memory inode may be ahead of the disk: `bmap` changes `addrs` and leaves
the writing back to its caller.  So its effect is stated on the file system
with the in-memory copy put in place of the inode on disk.
-/

namespace Xv6.Kernel

open Xv6.Lib Function List

variable {k : Sys} {s t : Blk} {ip : InodeId} {di dj : Dinode} {E : Stop → Prop}
  {sb : Superblock} {fs fs' : FS} {i n : Nat}

namespace Sys

def upd (k : Sys) (t : Blk) (ip : InodeId) (di : Dinode) : Sys :=
  (k.withBlk t).setInode ip { k.icache ip with di := di }

variable {jp : InodeId}

@[simp] theorem upd_blk : (k.upd t ip di).blk = t := rfl

@[simp] theorem upd_sb : (k.upd t ip di).sb = k.sb := rfl

@[simp] theorem upd_withBlk : (k.upd s ip di).withBlk t = k.upd t ip di := rfl

@[simp] theorem upd_icache_self : (k.upd t ip di).icache ip = { k.icache ip with di := di } :=
  update_self ..

theorem upd_icache_ne (h : jp ≠ ip) : (k.upd t ip di).icache jp = k.icache jp :=
  update_of_ne h ..

@[simp] theorem upd_upd : (k.upd s ip di).upd t ip dj = k.upd t ip dj := by
  unfold upd setInode withBlk
  simp only [update_idem, update_self]

theorem upd_self (k : Sys) (ip : InodeId) : k.upd k.blk ip (k.icache ip).di = k := by
  unfold upd setInode withBlk
  simp only [update_eq_self]

end Sys

section

variable {α : Type} {f : BlkM α} {Q : Unit → Sys → Prop} {x : UInt32}

theorem lift_wp {Q : α → Sys → Prop} :
    Wp E (lift f) Q k ↔ Wp E f (fun a t => Q a (k.withBlk t)) k.blk :=
  Wp.zoom_iff

theorem getInode_wp {Q : Inode → Sys → Prop} :
    Wp E (getInode ip) Q k ↔ Q (k.icache ip) k := Iff.rfl

theorem getSb_wp {Q : Superblock → Sys → Prop} : Wp E (Prog.gets Sys.sb) Q k ↔ Q k.sb k := Iff.rfl

theorem modifyDinode_wp {f : Dinode → Dinode} :
    Wp E (modifyDinode ip f) Q (k.upd s ip di) ↔ Q () (k.upd s ip (f di)) := by
  unfold modifyDinode
  rw [Wp.modify_iff]
  have he : (k.upd s ip di).setInode ip
      { (k.upd s ip di).icache ip with di := f ((k.upd s ip di).icache ip).di } =
      k.upd s ip (f di) := by
    rw [Sys.upd_icache_self]
    unfold Sys.upd Sys.setInode Sys.withBlk
    simp only [update_idem]
  rw [he]

theorem setAddr_wp : Wp E (setAddr ip n x) Q (k.upd s ip di) ↔ Q () (k.upd s ip (di.setAddr n x)) :=
  modifyDinode_wp

end

section

variable {a : Nat}

open Blk

theorem indirectEntry_wp {Q : UInt32 → Blk → Prop} (h : s.Holds sb fs []) (hE : Supply E s 0)
    (hmeta : ∀ b, b < sb.datastart → fs.used b = true) (ha : sb.isData a)
    (hroom : (fs.data a).u32 (4 * n) = 0 → Supply E s 3 ∧ Stock E sb fs 1)
    (hused : fs.used a = true) (hstale : ¬fs.stale a)
    (hold : ∀ t, (fs.data a).u32 (4 * n) ≠ 0 → t.Holds sb fs [] → Frame s t → t.log = s.log →
      Q ((fs.data a).u32 (4 * n)) t)
    (hnew : ∀ b t, (fs.data a).u32 (4 * n) = 0 → sb.isData b → fs.used b = false →
      t.Holds sb ((fs.alloc b).setBlock a ((fs.data a).setU32 (4 * n) (UInt32.ofNat b))) [] →
      Frame s t → b ∈ t.log.lh → Logged s t [sb.bblock b, b, a] → Q (UInt32.ofNat b) t) :
    Wp E (indirectEntry sb ROOTDEV a n) Q s := by
  unfold indirectEntry
  refine Wp.bind (h.bread_data_wp hE (by simp) ha (by simp) ?_)
  intro bp t v hon hr hf hbi hdata _ _ hlog
  rw [Wp.bind_iff, bdata_wp, hdata hstale]
  have ht : t.Holds sb fs [bp] := h.step hf hon hr fun c hc => hc
  by_cases h0 : (fs.data a).u32 (4 * n) = 0
  · obtain ⟨hE, hstock⟩ := hroom h0
    rw [if_pos h0, Wp.bind_iff]
    have hheld : t.HeldData sb fs [bp] := by
      intro j hj
      rw [mem_singleton.mp hj, hbi]
      exact ⟨ha, hused⟩
    refine balloc_wp ht ((hE.congr hlog).mono (by decide)) hstock hheld (by simp) hmeta ?_
    intro b u hu
    have hbuf : u.buf bp = t.buf bp := hu.held bp (mem_singleton_self bp)
    obtain ⟨v', hon', hr'⟩ := hu.holds.view
    rw [Wp.bind_iff, bdata_wp, hbuf, hdata hstale]
    have hlu : Logged s u [sb.bblock b, b] := hu.logs.congr_left hlog.symm
    refine hon'.storeLog_wp (hE.spend (hf.trans hu.frame) hu.holds.nodup hlu (by simp))
      (by rw [hbuf]; exact hbi) ?_ (h.layout.small ha.2)
      hu.holds.nlog_le ?_
    · exact hu.holds.not_inLog (hu.holds.inodestart_le_data ha)
    intro w hon'' hf'' _ _ hlw
    rw [Wp.pure_iff]
    refine hnew b w h0 hu.isData hu.clear ?_ ((hf.trans hu.frame).trans hf'')
      (hf''.lh _ hu.logged) (hlu.trans hlw)
    exact hu.holds.step hf'' hon'' (hr'.setBlock h.layout ha _) fun c hc => hc
  · rw [if_neg h0]
    refine Wp.bind (hon.brelse_wp ?_ ?_)
    · intro _
      rw [hdata hstale, hbi, hr.data a ha]
    intro u hon' hf' _ hlog'
    rw [Wp.pure_iff]
    exact hold u h0 (h.step (hf.trans hf') hon' hr fun c hc => hc) (hf.trans hf')
      (hlog'.trans hlog)

end

namespace FS

def indirects (fs : FS) (i : Nat) : List Nat :=
  if fs.slot i NDIRECT = 0 then [] else [fs.slot i NDIRECT]

/-- One while inode `i` has no indirect block. -/
def lacks (fs : FS) (i : Nat) : Nat := if fs.slot i NDIRECT = 0 then 1 else 0

theorem length_indirects (fs : FS) (i : Nat) : (fs.indirects i).length + fs.lacks i = 1 := by
  unfold indirects lacks
  split
  · rfl
  · rfl

theorem lacks_le (fs : FS) (i : Nat) : fs.lacks i ≤ 1 := by
  unfold lacks
  split
  · exact Nat.le_refl 1
  · exact Nat.zero_le 1

theorem mem_indirects_of_keep
    (hkeep : fs.slot i NDIRECT ≠ 0 → fs'.slot i NDIRECT = fs.slot i NDIRECT) :
    ∀ b ∈ fs.indirects i, b ∈ fs'.indirects i := by
  intro b hb
  unfold indirects at hb ⊢
  by_cases h0 : fs.slot i NDIRECT = 0
  · rw [if_pos h0] at hb
    cases hb
  rw [if_neg h0] at hb
  rw [hkeep h0, if_neg h0]
  exact hb

theorem lacks_congr (h : fs'.slot i NDIRECT = fs.slot i NDIRECT) : fs'.lacks i = fs.lacks i := by
  unfold lacks
  rw [h]

theorem indirects_congr (h : fs'.slot i NDIRECT = fs.slot i NDIRECT) :
    fs'.indirects i = fs.indirects i := by
  unfold indirects
  rw [h]

end FS

/-- From `s` to `t` inode `i` got at most `F` fresh blocks beside its indirect
block.  What was recorded are the blocks of `D`, the indirect block and one bitmap
block for each allocation. -/
def Spent (sb : Superblock) (s t : Blk) (fs fs' : FS) (i : Nat) (D : List Nat) (F : Nat) : Prop :=
  ∃ B : List Nat, Blk.Logged s t (D ++ fs'.indirects i ++ B) ∧
    B.length + fs'.lacks i ≤ F + fs.lacks i ∧ sb.freeCount fs ≤ sb.freeCount fs' + B.length

namespace Spent

variable {u : Blk} {fs'' : FS} {F F' m c b : Nat} {D D' L : List Nat}

open Blk

theorem refl (hlog : t.log = s.log) (D : List Nat) : Spent sb s t fs fs i D 0 :=
  ⟨[], (Logged.of_log hlog).mono (by simp), by simp, by simp⟩

theorem trans (h : Spent sb s t fs fs' i D F) (h' : Spent sb t u fs' fs'' i D' F')
    (hkeep : fs'.slot i NDIRECT ≠ 0 → fs''.slot i NDIRECT = fs'.slot i NDIRECT) :
    Spent sb s u fs fs'' i (D ++ D') (F + F') := by
  obtain ⟨B, hl, hb, hfree⟩ := h
  obtain ⟨B', hl', hb', hfree'⟩ := h'
  have hmem := FS.mem_indirects_of_keep hkeep
  refine ⟨B ++ B', (hl.trans hl').mono ?_, ?_, ?_⟩
  · intro b
    simp only [mem_append]
    tauto
  · rw [length_append]
    omega
  · rw [length_append]
    omega

theorem log (h : Spent sb s t fs fs' i D F) (hl : Logged t u [c]) (hD : ∀ b ∈ D, b ∈ D')
    (hc : c ∈ D') (hslot : fs''.slot i NDIRECT = fs'.slot i NDIRECT)
    (hused : fs''.used = fs'.used) :
    Spent sb s u fs fs'' i D' F := by
  obtain ⟨B, hlB, hb, hfree⟩ := h
  refine ⟨B, (hlB.trans hl).mono ?_, ?_, ?_⟩
  · intro b
    rw [FS.indirects_congr hslot]
    simp only [mem_append, mem_singleton]
    rintro ((hb' | hb') | rfl)
    · tauto
    · tauto
    · tauto
  · rw [FS.lacks_congr hslot]
    exact hb
  · unfold Superblock.freeCount at hfree ⊢
    rw [hused]
    exact hfree

theorem of_alloc (hl : Logged s t (sb.bblock b :: L))
    (hL : ∀ c ∈ L, c ∈ D ++ fs'.indirects i) (hfree : sb.freeCount fs' + 1 = sb.freeCount fs)
    (hF : 1 + fs'.lacks i ≤ F + fs.lacks i) : Spent sb s t fs fs' i D F := by
  refine ⟨[sb.bblock b], hl.mono ?_, hF, by simp [← hfree]⟩
  intro c hc
  rcases mem_cons.mp hc with rfl | hc
  · simp
  · exact mem_append_left _ (hL c hc)

theorem supply (h : Spent sb s t fs fs' i D F) (hE : Supply E s n) (hf : Frame s t)
    (hnd : t.log.lh.Nodup) (hm : D.length + F + fs.lacks i + 1 + m ≤ n + 2 * fs'.lacks i) :
    Supply E t m := by
  obtain ⟨B, hl, hb, _⟩ := h
  have hind := FS.length_indirects fs' i
  refine hE.spend hf hnd hl ?_
  simp only [length_append]
  omega

theorem stock (h : Spent sb s t fs fs' i D F) (hE : Stock E sb fs n)
    (hm : F + fs.lacks i + m ≤ n + fs'.lacks i) : Stock E sb fs' m := by
  obtain ⟨B, _, hb, hfree⟩ := h
  exact hE.spend hfree (by omega)

end Spent

structure Bmapped (s t : Blk) (sb : Superblock) (fs fs' : FS) (i : Nat) (di di' : Dinode)
    (bn addr : Nat) : Prop where
  holds : t.Holds sb fs' []
  frame : Blk.Frame s t
  ino : fs'.ino = fs.ino
  ext : Extends sb (fs.setIno i di) (fs'.setIno i di') i
  slot : (fs'.setIno i di').slot i (fileSlot bn) = addr
  ne_zero : addr ≠ 0
  only : ∀ n, n < MAXFILE → n ≠ bn →
    (fs'.setIno i di').slot i (fileSlot n) = (fs.setIno i di).slot i (fileSlot n)
  same : (fs.setIno i di).slot i (fileSlot bn) ≠ 0 → fs' = fs ∧ di' = di ∧ t.log = s.log
  logged : (fs.setIno i di).slot i (fileSlot bn) = 0 → addr ∈ t.log.lh
  spent : Spent sb s t (fs.setIno i di) (fs'.setIno i di') i [addr]
    (if (fs.setIno i di).slot i (fileSlot bn) = 0 then 1 else 0)

section

variable {Q : UInt32 → Sys → Prop}

open Blk

theorem addrOrAlloc_wp (h : s.Holds k.sb fs []) (hdev : (k.icache ip).dev = ROOTDEV)
    (hown : Own k.sb (fs.setIno i di)) (hn : n ≤ NDIRECT)
    (hroom : (fs.setIno i di).slot i n = 0 → Supply E s 2 ∧ Stock E k.sb fs 1)
    (hold : (fs.setIno i di).slot i n ≠ 0 → Q (di.addrs.get n) (k.upd s ip di))
    (hnew : ∀ b t, (fs.setIno i di).slot i n = 0 → k.sb.isData b → fs.used b = false →
      t.Holds k.sb (fs.alloc b) [] → Frame s t → b ∈ t.log.lh →
      Logged s t [k.sb.bblock b, b] → Q (UInt32.ofNat b)
        (k.upd t ip (di.setAddr n (UInt32.ofNat b)))) :
    Wp E (addrOrAlloc ip n) Q (k.upd s ip di) := by
  have hslot : (fs.setIno i di).slot i n = (di.addrs.get n).toNat := by
    rw [FS.slot_direct hn, FS.setIno_ino_self]
  unfold addrOrAlloc
  rw [Wp.bind_iff, getInode_wp, Sys.upd_icache_self]
  by_cases h0 : di.addrs.get n = 0
  · have h0' : (fs.setIno i di).slot i n = 0 := by
      rw [hslot, h0]
      rfl
    rw [if_pos h0, Wp.bind_iff, getSb_wp, Wp.bind_iff, lift_wp, hdev]
    obtain ⟨hE, hstock⟩ := hroom h0'
    refine balloc_wp h hE hstock (by intro j hj; simp at hj) (by simp)
      (fun b hb => hown.meta_used hb) ?_
    intro b t ht
    rw [Sys.upd_withBlk, Wp.bind_iff, setAddr_wp, Wp.pure_iff]
    exact hnew b t h0' ht.isData ht.clear ht.holds ht.frame ht.logged ht.logs
  · rw [if_neg h0, Wp.pure_iff]
    apply hold
    rw [hslot]
    intro hz
    apply h0
    rw [← UInt32.toNat_inj]
    exact hz

theorem FS.attachAddr_setIno (n b : Nat) : (fs.setIno i di).attachAddr i n b =
    (fs.alloc b).setIno i (di.setAddr n (UInt32.ofNat b)) := by
  have hcomm : (fs.setIno i di).alloc b = (fs.alloc b).setIno i di := rfl
  unfold FS.attachAddr
  rw [FS.setIno_ino_self, hcomm, FS.setIno_setIno]

/-- The first half of `bmap` for a block behind the indirect block, which is block `addr`. -/
structure Indirect (s t : Blk) (sb : Superblock) (fs fs' : FS) (i : Nat) (di di' : Dinode)
    (bn addr : Nat) : Prop where
  holds : t.Holds sb fs' []
  frame : Frame s t
  ino : fs'.ino = fs.ino
  ext : Extends sb (fs.setIno i di) (fs'.setIno i di') i
  slot : (fs'.setIno i di').slot i NDIRECT = addr
  ne_zero : addr ≠ 0
  keep : ∀ n, n < MAXFILE →
    (fs'.setIno i di').slot i (fileSlot n) = (fs.setIno i di).slot i (fileSlot n)
  same : (fs.setIno i di).slot i (fileSlot bn) ≠ 0 → fs' = fs ∧ di' = di ∧ t.log = s.log
  spent : Spent sb s t (fs.setIno i di) (fs'.setIno i di') i [] 0

section

variable (h : s.Holds k.sb fs []) (hdev : (k.icache ip).dev = ROOTDEV)
  (hown : Own k.sb (fs.setIno i di)) (hi : (fs.setIno i di).live k.sb i) {bn : Nat}
include h hdev hown hi

theorem bmap_direct_wp (hd : bn < NDIRECT)
    (hroom : (fs.setIno i di).slot i bn = 0 → Supply E s 2 ∧ Stock E k.sb fs 1)
    (hQ : ∀ addr t fs' di', Bmapped s t k.sb fs fs' i di di' bn addr.toNat →
      Q addr (k.upd t ip di')) : Wp E (addrOrAlloc ip bn) Q (k.upd s ip di) := by
  have hfs : fileSlot bn = bn := if_pos hd
  have hl := h.layout
  refine addrOrAlloc_wp h hdev hown (Nat.le_of_lt hd) hroom ?_ ?_
  · intro hne
    have hslot : (fs.setIno i di).slot i bn = (di.addrs.get bn).toNat := by
      rw [FS.slot_direct (Nat.le_of_lt hd), FS.setIno_ino_self]
    refine hQ _ s fs di ⟨h, Frame.refl s, rfl, Extends.refl hown i, by rw [hfs, hslot], ?_,
      fun _ _ _ => rfl, fun _ => ⟨rfl, rfl, rfl⟩, ?_, ?_⟩
    · rw [← hslot]
      exact hne
    · intro h0
      rw [hfs] at h0
      exact absurd h0 hne
    · rw [hfs, if_neg hne]
      exact Spent.refl rfl _
  · intro b t h0 hb hclear ht hf hm hlogs
    have hext := Extends.attachAddr hown hl hi hb hclear (Nat.le_of_lt hd) h0
    have hslot := FS.slot_attachAddr hown hl hb hclear (Nat.le_of_lt hd) h0 i
    rw [FS.attachAddr_setIno] at hext hslot
    have hto := toNat_ofNat_of_isData hl hb
    refine hQ _ t _ _ ⟨ht, hf, rfl, hext, ?_, by rw [hto]; exact hb.ne_zero, ?_, ?_,
      fun _ => by rw [hto]; exact hm, ?_⟩
    · rw [hfs, hslot bn hi (hd.trans (by decide)), if_pos ⟨rfl, rfl⟩, hto]
    · intro n hn hne
      rw [hslot _ hi (fileSlot_lt hn), if_neg]
      rintro ⟨_, he⟩
      exact hne (fileSlot_inj (he.trans hfs.symm))
    · intro hne
      rw [hfs] at hne
      exact absurd h0 hne
    · have hind := hslot NDIRECT hi (by decide)
      rw [if_neg fun hx => Nat.ne_of_gt hd hx.2] at hind
      rw [hfs, if_pos h0, hto]
      refine Spent.of_alloc hlogs (by simp) (FS.freeCount_alloc hb.2 hclear) ?_
      rw [FS.lacks_congr hind]

theorem bmap_indirect_wp (hE : Supply E s 0) (hd : NDIRECT ≤ bn)
    (hroom : (fs.setIno i di).slot i (fileSlot bn) = 0 →
      Supply E s (3 + 2 * (fs.setIno i di).lacks i) ∧
      Stock E k.sb fs (1 + (fs.setIno i di).lacks i))
    (hQ : ∀ addr t fs' di', Indirect s t k.sb fs fs' i di di' bn addr.toNat → Supply E t 0 →
      ((fs.setIno i di).slot i (fileSlot bn) = 0 → Supply E t 3 ∧ Stock E k.sb fs' 1) →
      Q addr (k.upd t ip di')) : Wp E (addrOrAlloc ip NDIRECT) Q (k.upd s ip di) := by
  have hfs : NDIRECT < fileSlot bn := by
    unfold fileSlot
    rw [if_neg (by omega)]
    omega
  have hl := h.layout
  refine addrOrAlloc_wp h hdev hown le_rfl ?_ ?_ ?_
  · intro h0
    obtain ⟨hsup, hstock⟩ := hroom (FS.slot_entry_zero hfs h0)
    exact ⟨hsup.mono (by omega), hstock.mono (by omega)⟩
  · intro hne
    have hslot : (fs.setIno i di).slot i NDIRECT = (di.addrs.get NDIRECT).toNat := by
      rw [FS.slot_direct le_rfl, FS.setIno_ino_self]
    exact hQ _ s fs di ⟨h, Frame.refl s, rfl, Extends.refl hown i, hslot,
      by rw [← hslot]; exact hne, fun _ _ => rfl, fun _ => ⟨rfl, rfl, rfl⟩, Spent.refl rfl []⟩ hE
      fun hz => ⟨(hroom hz).1.mono (by omega), (hroom hz).2.mono (by omega)⟩
  · intro b t h0 hb hclear ht hf _ hlogs
    have hext := Extends.attachAddr hown hl hi hb hclear le_rfl h0
    have hslot := FS.slot_attachAddr hown hl hb hclear le_rfl h0 i
    rw [FS.attachAddr_setIno] at hext hslot
    have hto := toNat_ofNat_of_isData hl hb
    have hzero : (fs.setIno i di).slot i (fileSlot bn) = 0 := FS.slot_entry_zero hfs h0
    have hind := hslot NDIRECT hi (by decide)
    rw [if_pos ⟨rfl, rfl⟩] at hind
    have hlack : (fs.setIno i di).lacks i = 1 := if_pos h0
    obtain ⟨hsup, hstock⟩ := hroom hzero
    have hsup' : Supply E t 3 := hsup.spend hf ht.nodup hlogs (by rw [hlack]; simp)
    have hfree := FS.freeCount_alloc hb.2 hclear
    refine hQ _ t _ _ ⟨ht, hf, rfl, hext, by rw [hind, hto], by rw [hto]; exact hb.ne_zero, ?_,
      fun hne => absurd hzero hne, ?_⟩ (hsup'.mono (Nat.zero_le _))
      fun _ => ⟨hsup', hstock.spend (Nat.le_of_eq hfree.symm) (by omega)⟩
    · intro n hn
      rw [hslot _ hi (fileSlot_lt hn), if_neg fun hx => fileSlot_ne n hx.2]
    · refine Spent.of_alloc hlogs ?_ hfree ?_
      · intro c hc
        rw [FS.indirects, hind, if_neg hb.ne_zero]
        exact hc
      · rw [hlack, FS.lacks, hind, if_neg hb.ne_zero]

omit h hdev hown in
theorem bmap_entry_wp {addr : UInt32} {fs1 : FS} {di1 : Dinode}
    (hx : Indirect s t k.sb fs fs1 i di di1 bn addr.toNat) (hE : Supply E t 0)
    (hd : NDIRECT ≤ bn) (hbn : bn < MAXFILE)
    (hroom : (fs.setIno i di).slot i (fileSlot bn) = 0 → Supply E t 3 ∧ Stock E k.sb fs1 1)
    (hQ : ∀ addr t fs' di', Bmapped s t k.sb fs fs' i di di' bn addr.toNat →
      Q addr (k.upd t ip di')) :
    Wp E (lift (indirectEntry k.sb ROOTDEV addr.toNat (bn - NDIRECT))) Q (k.upd t ip di1) := by
  obtain ⟨ht, hf, hino, hext, hind, hne, hkeep, hsame, hsp⟩ := hx
  have hl := ht.layout
  have hn : bn - NDIRECT < NINDIRECT := by
    unfold MAXFILE at hbn
    omega
  have hfs : fileSlot bn = NDIRECT + 1 + (bn - NDIRECT) := by
    unfold fileSlot
    rw [if_neg (by omega)]
    omega
  have hi1 := (hext.live i).mpr hi
  have hown1 := hext.own
  rw [← hind] at hne ⊢
  have hdata := hown1.isData hi1 (by decide) hne
  have hentry : (fs1.setIno i di1).slot i (fileSlot bn) =
      ((fs1.data ((fs1.setIno i di1).slot i NDIRECT)).u32 (4 * (bn - NDIRECT))).toNat := by
    rw [FS.slot_entry (k := fileSlot bn) (by omega) hne, hfs,
      show NDIRECT + 1 + (bn - NDIRECT) - (NDIRECT + 1) = bn - NDIRECT by omega]
    rfl
  rw [lift_wp]
  refine indirectEntry_wp ht hE (fun b hb => hown1.meta_used hb) hdata ?_
    (hown1.slot_used hi1 (by decide) hne) (hown1.clean i hi1 hne) ?_ ?_
  · intro h0
    apply hroom
    rw [← hkeep bn hbn, hentry, h0]
    rfl
  · intro u h0 hu hfu hlog
    have h0' : (fs1.setIno i di1).slot i (fileSlot bn) ≠ 0 := by
      rw [hentry]
      exact fun hz => h0 (UInt32.toNat_inj.mp hz)
    refine hQ _ u fs1 di1 ⟨hu, hf.trans hfu, hino, hext, hentry, by rw [← hentry]; exact h0',
      fun n hn _ => hkeep n hn, ?_, ?_, ?_⟩
    · intro hne'
      obtain ⟨e1, e2, e3⟩ := hsame hne'
      exact ⟨e1, e2, hlog.trans e3⟩
    · intro hz
      exact absurd ((hkeep bn hbn).trans hz) h0'
    · rw [if_neg (by rw [← hkeep bn hbn]; exact h0')]
      exact hsp.trans (Spent.refl hlog _) fun _ => rfl
  · intro b u h0 hb hclear hu hfu hm hlogs
    have h0' : (fs1.setIno i di1).slot i (NDIRECT + 1 + (bn - NDIRECT)) = 0 := by
      rw [← hfs, hentry, h0]
      rfl
    have hz : (fs.setIno i di).slot i (fileSlot bn) = 0 := by
      rw [← hkeep bn hbn, hfs]
      exact h0'
    have hext2 := Extends.attachEntry hown1 hl hi1 hb hclear hn hne h0'
    have hto := toNat_ofNat_of_isData hl hb
    have hs : ∀ m, m < MAXFILE → _ := fun m hm =>
      FS.slot_attachEntry hown1 hl hi1 hb hclear hn hne i (fileSlot m) hi1 (fileSlot_lt hm)
    refine hQ _ u _ di1 ⟨hu, hf.trans hfu, hino, hext.trans hext2 hi, ?_,
      by rw [hto]; exact hb.ne_zero, ?_, fun hne' => absurd hz hne', fun _ => by rw [hto]; exact hm,
      ?_⟩
    · have hs := hs bn hbn
      rw [if_pos ⟨rfl, hfs⟩] at hs
      rw [hto]
      exact hs
    · intro m hm hne'
      have hs := hs m hm
      rw [if_neg fun hx => hne' (fileSlot_inj (hx.2.trans hfs.symm)), hkeep m hm] at hs
      exact hs
    · have hind2 : ((fs1.setIno i di1).attachEntry i (bn - NDIRECT) b).slot i NDIRECT =
          (fs1.setIno i di1).slot i NDIRECT := hext2.keep i NDIRECT hi1 (by decide) hne
      have hnew : Spent k.sb t u (fs1.setIno i di1)
          ((fs1.setIno i di1).attachEntry i (bn - NDIRECT) b) i [b] 1 := by
        refine Spent.of_alloc hlogs ?_ (FS.freeCount_alloc hb.2 hclear) ?_
        · intro c hc
          rw [FS.indirects_congr hind2, FS.indirects, if_neg hne]
          exact hc
        · rw [FS.lacks_congr hind2]
      rw [if_pos hz, hto]
      exact hsp.trans hnew fun _ => hind2

theorem bmap_wp (hE : Supply E s 0) (hbn : bn < MAXFILE)
    (hroom : (fs.setIno i di).slot i (fileSlot bn) = 0 →
      Supply E s (3 + 2 * (fs.setIno i di).lacks i) ∧
      Stock E k.sb fs (1 + (fs.setIno i di).lacks i))
    (hQ : ∀ addr t fs' di', Bmapped s t k.sb fs fs' i di di' bn addr.toNat →
      Q addr (k.upd t ip di')) : Wp E (bmap ip bn) Q (k.upd s ip di) := by
  unfold bmap
  by_cases hd : bn < NDIRECT
  · rw [if_pos hd]
    refine bmap_direct_wp h hdev hown hi hd ?_ hQ
    intro h0
    have hfs : fileSlot bn = bn := if_pos hd
    obtain ⟨hsup, hstock⟩ := hroom (by rw [hfs]; exact h0)
    exact ⟨hsup.mono (by omega), hstock.mono (by omega)⟩
  · have hn : bn - NDIRECT < NINDIRECT := by
      unfold MAXFILE at hbn
      omega
    rw [if_neg hd, if_pos hn]
    refine Wp.bind (bmap_indirect_wp h hdev hown hi hE (by omega) hroom ?_)
    intro addr t fs1 di1 hx hE1 hroom1
    rw [Wp.bind_iff, getSb_wp, Wp.bind_iff, getInode_wp, Sys.upd_icache_self, hdev]
    exact bmap_entry_wp hi hx hE1 (by omega) hbn hroom1 hQ

end

theorem iupdate_wp {Q : Unit → Sys → Prop} (h : s.Holds k.sb fs []) (hE : Supply E s 1)
    (hdev : (k.icache ip).dev = ROOTDEV) (hinum : (k.icache ip).inum = i) (hi : i < k.sb.ninodes)
    (hQ : ∀ t, t.Holds k.sb (fs.setIno i di) [] → Frame s t → Logged s t [k.sb.iblock i] →
      Q () (k.upd t ip di)) : Wp E (iupdate ip) Q (k.upd s ip di) := by
  unfold iupdate
  rw [Wp.bind_iff, getSb_wp, Wp.bind_iff, getInode_wp, Sys.upd_icache_self, lift_wp]
  rw [hdev, hinum]
  refine storeDinode_wp h hE (by intro j hj; simp at hj) (by simp) hi di ?_
  intro t ht hf _ hl
  exact hQ t ht hf hl

theorem Own.relabel (h : Own sb (fs.setIno i di)) (ha : dj.addrs = di.addrs)
    (ht : dj.type = 0 ↔ di.type = 0) : Own sb (fs.setIno i dj) := by
  apply h.congr
  · intro j
    unfold FS.live
    by_cases hji : j = i
    · rw [hji, FS.setIno_ino_self, FS.setIno_ino_self, ne_eq, ne_eq, ht]
    · rw [FS.setIno_ino_ne _ hji, FS.setIno_ino_ne _ hji]
  · intro j l _ _
    apply FS.slot_congr
    · by_cases hji : j = i
      · rw [hji, FS.setIno_ino_self, FS.setIno_ino_self, ha]
      · rw [FS.setIno_ino_ne _ hji, FS.setIno_ino_ne _ hji]
    · exact fun _ => rfl
  · exact fun _ => rfl
  · exact fun _ _ hs => hs

end

end Xv6.Kernel
