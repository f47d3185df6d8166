import Xv6.Proofs.Format
/-!
# Allocating blocks and storing inodes

The block-layer functions of `fs.c` as updates of the record `FS`.  While one
of them runs the caller may hold buffers, which are data blocks in use.
-/

namespace Xv6.Kernel

open Xv6.Lib Function List
open Xv6.Lib.RedoLog

variable {s : Blk} {sb : Superblock} {fs fs' : FS} {hs : List BufId} {E : Stop → Prop}
  {n b m k j : Nat}

namespace Blk

structure Holds (s : Blk) (sb : Superblock) (fs : FS) (hs : List BufId) : Prop where
  layout : Layout sb
  start : s.log.start = sb.logstart
  size : s.log.size = sb.nlog
  dev : s.log.dev = ROOTDEV
  view : ∃ v, s.On v fs.stale hs ∧ Reads sb v fs

def HeldData (s : Blk) (sb : Superblock) (fs : FS) (hs : List BufId) : Prop :=
  ∀ j ∈ hs, sb.isData (s.buf j).blockno ∧ fs.used (s.buf j).blockno = true

namespace Holds

variable {t : Blk}

section

variable (h : s.Holds sb fs hs) {v : Nat → Block} {T : Nat → Prop} {hs' : List BufId}
  {Q : BufId → Blk → Prop}
include h

theorem inLog_iff : s.log.format.inLog b ↔ sb.inLog b := by
  unfold Format.inLog Superblock.inLog Log.format
  rw [h.start, h.size]

theorem not_inLog (hb : sb.inodestart ≤ b) :
    ¬s.log.format.inLog b := by
  rw [h.inLog_iff]
  exact h.layout.not_inLog hb

theorem inodestart_le_data (hb : sb.isData b) :
    sb.inodestart ≤ b := by
  have hle := h.layout.inodestart_le
  have hlt : sb.bmapstart < sb.datastart := Layout.bmapstart_lt
  have hge : sb.datastart ≤ b := hb.1
  omega

theorem step (hf : Frame s t) (hon : t.On v T hs') (hr : Reads sb v fs')
    (hT : ∀ c, T c → fs'.stale c) : t.Holds sb fs' hs' where
  layout := h.layout
  start := hf.start.trans h.start
  size := hf.size.trans h.size
  dev := hf.dev.trans h.dev
  view := by
    refine ⟨v, hon.mono hT ?_, hr⟩
    intro c hc hs
    rw [hf.inLog] at hc
    exact h.not_inLog (h.inodestart_le_data (hr.stale c hs)) hc

theorem nodup : s.log.lh.Nodup := by
  obtain ⟨v, hon, _⟩ := h.view
  exact hon.log.nodup

theorem nlog_le : s.log.size ≤ LOGSIZE := by
  rw [h.size]
  exact h.layout.nlog.2

theorem bread_meta_wp (hE : Supply E s n) (hh : s.HeldData sb fs hs)
    (hlen : hs.length ≤ 2) (hb : b < sb.datastart)
    (hQ : ∀ i t v, t.On v fs.stale (i :: hs) → Reads sb v fs → Frame s t →
      (t.buf i).blockno = b → (t.buf i).data = v b → (∀ j ∈ hs, t.buf j = s.buf j) →
      t.log = s.log → Q i t) :
    Wp E (bread ROOTDEV b) Q s := by
  obtain ⟨v, hon, hr⟩ := h.view
  refine hon.bread_wp hE hlen h.dev.symm ?_ ?_
  · intro j hj he
    have hd : sb.datastart ≤ (s.buf j).blockno := (hh j hj).1.1
    omega
  intro i t hon' hf hbi ho hlog hdata
  refine hQ i t v hon' hr hf hbi (hdata (.inr ?_)) ho hlog
  intro hst
  have hd : sb.datastart ≤ b := (hr.stale b hst).1
  omega

theorem bread_data_wp (hE : Supply E s n) (hlen : hs.length ≤ 2)
   (hb : sb.isData b) (hfree : ∀ j ∈ hs, (s.buf j).blockno ≠ b)
    (hQ : ∀ i t v, t.On v fs.stale (i :: hs) → Reads sb v fs → Frame s t →
      (t.buf i).blockno = b → (¬fs.stale b → (t.buf i).data = fs.data b) →
      (b ∈ s.log.lh → (t.buf i).data = fs.data b) →
      (∀ j ∈ hs, t.buf j = s.buf j) → t.log = s.log → Q i t) :
    Wp E (bread ROOTDEV b) Q s := by
  obtain ⟨v, hon, hr⟩ := h.view
  refine hon.bread_wp hE hlen h.dev.symm hfree ?_
  intro i t hon' hf hbi ho hlog hdata
  refine hQ i t v hon' hr hf hbi ?_ ?_ ho hlog
  · intro hst
    rw [hdata (.inr hst), hr.data b hb]
  · intro hlh
    rw [hdata (.inl hlh), hr.data b hb]

end

end Holds

end Blk

/-! ## The free blocks -/

def Superblock.freeCount (sb : Superblock) (fs : FS) : Nat :=
  (List.range sb.size).countP fun b => !fs.used b

private theorem countP_update_range (p : Nat → Bool) (hp : p b = false) (n : Nat) :
    (List.range n).countP (fun c => !(update p b true) c) + (if b < n then 1 else 0) =
      (List.range n).countP fun c => !p c := by
  induction n with
  | zero => simp
  | succ n ih =>
    rw [range_succ, countP_append, countP_append, ← ih]
    rcases eq_or_ne b n with rfl | hb
    · simp [hp]
    have hn : update p b true n = p n := update_of_ne (Ne.symm hb) _ _
    have hlt : b < n + 1 ↔ b < n := by omega
    simp only [countP_singleton, hn, hlt]
    omega

namespace FS

theorem freeCount_alloc (hb : b < sb.size) (hclear : fs.used b = false) :
    sb.freeCount (fs.alloc b) + 1 = sb.freeCount fs := by
  have h := countP_update_range fs.used hclear sb.size
  rw [if_pos hb] at h
  exact h

theorem freeCount_eq_zero (h : ∀ b, b < sb.size → fs.used b = true) : sb.freeCount fs = 0 := by
  unfold Superblock.freeCount
  rw [countP_eq_zero]
  intro b hb
  simp [h b (mem_range.mp hb)]

end FS

def Stock (E : Stop → Prop) (sb : Superblock) (fs : FS) (m : Nat) : Prop :=
  Tolerant E ∨ m ≤ sb.freeCount fs

theorem Stock.mono (h : Stock E sb fs m) (hk : k ≤ m) : Stock E sb fs k :=
  h.imp_right (Nat.le_trans hk)

theorem Stock.spend
    (h : Stock E sb fs m) (hfree : sb.freeCount fs ≤ sb.freeCount fs' + j) (hk : k + j ≤ m) :
    Stock E sb fs' k :=
  h.imp_right fun hm => by omega

section

variable {i bi q : Nat} {d : Block}

open Blk

theorem bzero_wp {Q : Unit → Blk → Prop} (h : s.Holds sb fs hs) (hE : Supply E s 1)
    (hlen : hs.length ≤ 2)
    (hb : sb.isData b) (hfree : ∀ j ∈ hs, (s.buf j).blockno ≠ b)
    (hQ : ∀ t, t.Holds sb (fs.setBlock b Bytes.zero) hs → Frame s t →
      (∀ j ∈ hs, t.buf j = s.buf j) → b ∈ t.log.lh → Logged s t [b] → Q () t) :
    Wp E (bzero ROOTDEV b) Q s := by
  unfold bzero
  refine Wp.bind (h.bread_data_wp hE hlen hb hfree ?_)
  intro i t v hon hr hf hbi _ _ ho hlog
  have hout : ¬t.log.format.inLog b := by
    rw [hlog]
    exact h.not_inLog (h.inodestart_le_data hb)
  refine hon.storeLogEnd_wp (hE.congr hlog) hbi hout (h.layout.small hb.2)
    (by rw [hlog]; exact h.nlog_le) ?_
  intro u hon' hf' ho' hm hl
  refine hQ u (h.step (hf.trans hf') hon' (hr.setBlock h.layout hb _) fun c hc => hc)
    (hf.trans hf') ?_ hm (hl.congr_left hlog.symm)
  intro j hj
  rw [ho' j hj, ho j hj]

theorem firstClear_spec (h : firstClear d n = some bi) :
    bi < n ∧ d.bit bi = false := by
  have hp := List.find?_some h
  have hm := List.mem_of_find?_eq_some h
  exact ⟨mem_range.mp hm, by simpa using hp⟩

theorem firstClear_none (h : firstClear d n = none) :
    ∀ bi, bi < n → d.bit bi = true := by
  intro bi hbi
  have hp := List.find?_eq_none.mp h bi (mem_range.mpr hbi)
  simpa using hp

structure Allocated (s t : Blk) (sb : Superblock) (fs : FS) (hs : List BufId) (b : Nat) :
    Prop where
  isData : sb.isData b
  clear : fs.used b = false
  holds : t.Holds sb (fs.alloc b) hs
  frame : Frame s t
  held : ∀ j ∈ hs, t.buf j = s.buf j
  logged : b ∈ t.log.lh
  logs : Logged s t [sb.bblock b, b]

theorem ballocRound_wp {Q : Option Nat → Blk → Prop} (h : s.Holds sb fs hs) (hE : Supply E s 2)
    (hh : s.HeldData sb fs hs)
    (hlen : hs.length ≤ 2) (hmeta : ∀ b, b < sb.datastart → fs.used b = true)
    (hq : q * BPB < sb.size)
    (hsome : ∀ b t, Allocated s t sb fs hs b → Q (some b) t)
    (hnone : ∀ t, t.Holds sb fs hs → Frame s t → (∀ j ∈ hs, t.buf j = s.buf j) →
      t.log = s.log → (∀ b, b < sb.size → b / BPB = q → fs.used b = true) → Q none t) :
    Wp E (ballocRound sb ROOTDEV (q * BPB)) Q s := by
  have hbb := (Layout.bblock_lt hq).2
  have hge := (Layout.bblock_lt hq).1
  have hin : sb.inodestart ≤ sb.bblock (q * BPB) := Nat.le_trans h.layout.inodestart_le hge
  unfold ballocRound
  refine Wp.bind (h.bread_meta_wp hE hh hlen hbb ?_)
  intro i t v hon hr hf hbi hdata ho hlog
  rw [Wp.bind_iff, bdata_wp, hdata]
  cases hc : firstClear (v (sb.bblock (q * BPB))) (min BPB (sb.size - q * BPB)) with
  | none =>
    refine Wp.bind (hon.brelse_wp (fun _ => by rw [hdata, hbi]) ?_)
    intro u hon' hf' ho' hlog'
    refine hnone u (h.step (hf.trans hf') hon' hr fun c hc => hc) (hf.trans hf') ?_
      (hlog'.trans hlog) ?_
    · intro j hj
      rw [ho' j hj, ho j hj]
    intro b hb hbq
    have hmod : b % BPB < min BPB (sb.size - q * BPB) := by
      rw [BPB_eq] at *
      omega
    have hset := firstClear_none hc _ hmod
    have hblk : sb.bblock b = sb.bblock (q * BPB) := by
      unfold Superblock.bblock
      rw [BPB_eq] at *
      omega
    rw [← hr.used b hb, hblk]
    exact hset
  | some bi =>
    obtain ⟨hlt, hbit⟩ := firstClear_spec hc
    have hbi' : bi < BPB := by omega
    have hsz : q * BPB + bi < sb.size := by omega
    have hblk : sb.bblock (q * BPB + bi) = sb.bblock (q * BPB) := by
      unfold Superblock.bblock
      rw [BPB_eq] at *
      omega
    have hmod : (q * BPB + bi) % BPB = bi := by
      rw [Nat.add_comm, Nat.add_mul_mod_self_right, Nat.mod_eq_of_lt hbi']
    have hclear : fs.used (q * BPB + bi) = false := by
      rw [← hr.used _ hsz, hblk, hmod]
      exact hbit
    have hisData : sb.isData (q * BPB + bi) := by
      refine ⟨?_, hsz⟩
      by_contra hlt'
      rw [hmeta _ (by omega)] at hclear
      exact Bool.false_ne_true hclear.symm
    have hheld : ∀ j ∈ hs, (s.buf j).blockno ≠ q * BPB + bi := by
      intro j hj he
      have hu := (hh j hj).2
      rw [he, hclear] at hu
      exact Bool.false_ne_true hu
    simp only
    refine hon.storeLog_wp ((hE.congr hlog).mono (by decide)) hbi ?_ ?_
      (by rw [hlog]; exact h.nlog_le) ?_
    · rw [hlog]
      exact h.not_inLog hin
    · exact h.layout.small (Nat.lt_of_lt_of_le hbb h.layout.data)
    intro u hon' hf' ho' _ hl'
    have hr' : Reads sb (update v (sb.bblock (q * BPB))
        ((v (sb.bblock (q * BPB))).setBit bi)) (fs.setUsed (q * BPB + bi) true) := by
      rw [← hblk]
      refine hr.setUsed h.layout hsz ?_
      intro j
      rw [hblk, hmod, Bytes.bit_setBit (by exact hbi')]
    have hu : u.Holds sb (fs.setUsed (q * BPB + bi) true) hs :=
      h.step (hf.trans hf') hon' hr' fun c hc => hc.1
    have hlu : Logged s u [sb.bblock (q * BPB)] := hl'.congr_left hlog.symm
    rw [Wp.bind_iff]
    refine bzero_wp hu (hE.spend (hf.trans hf') hu.nodup hlu (by simp)) hlen hisData ?_ ?_
    · intro j hj
      rw [ho' j hj, ho j hj]
      exact hheld j hj
    intro w hw hfw how hmw hlw
    refine hsome _ w ⟨hisData, hclear, hw, (hf.trans hf').trans hfw, ?_, hmw,
      by rw [hblk]; exact hlu.trans hlw⟩
    intro j hj
    rw [how j hj, ho' j hj, ho j hj]

theorem balloc_wp {Q : UInt32 → Blk → Prop} (h : s.Holds sb fs hs) (hE : Supply E s 2)
    (hstock : Stock E sb fs 1)
    (hh : s.HeldData sb fs hs) (hlen : hs.length ≤ 2)
    (hmeta : ∀ b, b < sb.datastart → fs.used b = true)
    (hQ : ∀ b t, Allocated s t sb fs hs b → Q (UInt32.ofNat b) t) :
    Wp E (balloc sb ROOTDEV) Q s := by
  unfold balloc
  rw [Wp.bind_iff]
  -- the bits of the bitmap blocks gone through are set
  refine Wp.post (Wp.findRange
    (I := fun q t => t.Holds sb fs hs ∧ Frame s t ∧ (∀ j ∈ hs, t.buf j = s.buf j) ∧
      t.log = s.log ∧ ∀ b, b < sb.size → b / BPB < q → fs.used b = true)
    (R := fun b t => Allocated s t sb fs hs b)
    ⟨h, Frame.refl s, fun _ _ => rfl, rfl, fun b _ hb => absurd hb (Nat.not_lt_zero _)⟩ ?_) ?_
  · rintro q t _ hq ⟨ht, hf, ho, hlog, hset⟩
    have hlt : q * BPB < sb.size := by
      rw [BPB_eq] at *
      omega
    refine ballocRound_wp ht (hE.congr hlog) ?_ hlen hmeta hlt ?_ ?_
    · intro j hj
      rw [ho j hj]
      exact hh j hj
    · intro b u hu
      refine ⟨hu.isData, hu.clear, hu.holds, hf.trans hu.frame, ?_, hu.logged,
        hu.logs.congr_left hlog.symm⟩
      intro j hj
      rw [hu.held j hj, ho j hj]
    intro u hu hfu hou hlogu hsetu
    refine ⟨hu, hf.trans hfu, ?_, hlogu.trans hlog, ?_⟩
    · intro j hj
      rw [hou j hj, ho j hj]
    intro b hb hbq
    rcases Nat.lt_succ_iff_lt_or_eq.mp hbq with hbq | hbq
    · exact hset b hb hbq
    · exact hsetu b hb hbq
  · intro r t hr
    cases r with
    | some b => exact hQ b t hr
    | none =>
      obtain ⟨_, _, _, _, hset⟩ := hr
      rcases hstock with hE | hfree
      · exact hE _ rfl
      -- every bit is set, yet one block is free
      have hzero : sb.freeCount fs = 0 := by
        refine FS.freeCount_eq_zero ?_
        intro b hb
        refine hset b hb ?_
        rw [BPB_eq] at *
        omega
      omega

/-! ## Inodes -/

section

variable (h : s.Holds sb fs hs)
include h

theorem loadDinode_wp {Q : Dinode → Blk → Prop} (hE : Supply E s n) (hh : s.HeldData sb fs hs)
    (hlen : hs.length ≤ 2) (hi : i < sb.ninodes)
    (hQ : ∀ t, t.Holds sb fs hs → Frame s t → (∀ j ∈ hs, t.buf j = s.buf j) → t.log = s.log →
      Q (fs.ino i) t) :
    Wp E (loadDinode sb ROOTDEV i) Q s := by
  have hlt : sb.iblock i < sb.datastart :=
    Nat.lt_trans (h.layout.iblock_lt hi).2 Layout.bmapstart_lt
  unfold loadDinode
  refine Wp.bind (h.bread_meta_wp hE hh hlen hlt ?_)
  intro bp t v hon hr hf hbi hdata ho hlog
  rw [Wp.bind_iff, bdata_wp, hdata]
  refine Wp.bind (hon.brelse_wp (fun _ => by rw [hdata, hbi]) ?_)
  intro u hon' hf' ho' hlog'
  rw [Wp.pure_iff, hr.ino i hi]
  refine hQ u (h.step (hf.trans hf') hon' hr fun c hc => hc) (hf.trans hf') ?_
    (hlog'.trans hlog)
  intro j hj
  rw [ho' j hj, ho j hj]

private theorem storeHeld_wp (hE : Supply E s 1) {t : Blk}
    {v : Nat → Block} {bp : BufId} (hi : i < sb.ninodes)
    (hon : t.On v fs.stale (bp :: hs)) (hr : Reads sb v fs) (hf : Frame s t)
    (hbi : (t.buf bp).blockno = sb.iblock i) (ho : ∀ j ∈ hs, t.buf j = s.buf j)
    (hlog : t.log = s.log) (di : Dinode) {α : Type} {rest : BlkM α} {Q : α → Blk → Prop}
    (hQ : ∀ u, u.Holds sb (fs.setIno i di) hs → Frame s u → (∀ j ∈ hs, u.buf j = s.buf j) →
      Logged s u [sb.iblock i] → Wp E rest Q u) :
    Wp E (do
      setData bp (di.store (Dinode.offset i) (v (sb.iblock i)))
      logWrite bp
      brelse bp
      rest) Q t := by
  have hlt : sb.iblock i < sb.datastart :=
    Nat.lt_trans (h.layout.iblock_lt hi).2 Layout.bmapstart_lt
  refine hon.storeLog_wp (hE.congr hlog) hbi ?_ ?_ (by rw [hlog]; exact h.nlog_le) ?_
  · rw [hlog]
    exact h.not_inLog (h.layout.iblock_lt hi).1
  · exact h.layout.small (Nat.lt_of_lt_of_le hlt h.layout.data)
  intro u hon' hf' ho' _ hl
  refine hQ u (h.step (hf.trans hf') hon' (hr.setIno h.layout hi di) fun c hc => hc.1)
    (hf.trans hf') ?_ (hl.congr_left hlog.symm)
  intro j hj
  rw [ho' j hj, ho j hj]

theorem storeDinode_wp (hE : Supply E s 1) (hh : s.HeldData sb fs hs)
    (hlen : hs.length ≤ 2) (hi : i < sb.ninodes) (di : Dinode) {Q : Unit → Blk → Prop}
    (hQ : ∀ t, t.Holds sb (fs.setIno i di) hs → Frame s t → (∀ j ∈ hs, t.buf j = s.buf j) →
      Logged s t [sb.iblock i] → Q () t) :
    Wp E (storeDinode sb ROOTDEV i di) Q s := by
  have hlt : sb.iblock i < sb.datastart :=
    Nat.lt_trans (h.layout.iblock_lt hi).2 Layout.bmapstart_lt
  unfold storeDinode
  refine Wp.bind (h.bread_meta_wp hE hh hlen hlt ?_)
  intro bp t v hon hr hf hbi hdata ho hlog
  rw [Wp.bind_iff, bdata_wp, hdata]
  have hstore : Wp E (do
      setData bp (di.store (Dinode.offset i) (v (sb.iblock i)))
      logWrite bp
      brelse bp
      pure ()) Q t := storeHeld_wp h hE hi hon hr hf hbi ho hlog di hQ
  simp only [Wp.bind_iff] at hstore ⊢
  exact hstore

theorem iallocSearch_wp (hE : Supply E s 1) (hh : s.HeldData sb fs hs)
    (hlen : hs.length ≤ 2) (type : Int16) {Q : Option Nat → Blk → Prop}
    (hsome : ∀ i t, 1 ≤ i → i < sb.ninodes → (fs.ino i).type = 0 →
      t.Holds sb (fs.setIno i (Dinode.fresh type)) hs → Frame s t →
      (∀ j ∈ hs, t.buf j = s.buf j) → Logged s t [sb.iblock i] → Q (some i) t)
    (hnone : ∀ t, (∀ i, 1 ≤ i → i < sb.ninodes → (fs.ino i).type ≠ 0) → Q none t) :
    Wp E (Prog.findRange (iallocRound sb ROOTDEV type) 1 (sb.ninodes - 1)) Q s := by
  refine Wp.post (Wp.findRange
    (I := fun k t => t.Holds sb fs hs ∧ Frame s t ∧ (∀ j ∈ hs, t.buf j = s.buf j) ∧
      t.log = s.log ∧ ∀ i, 1 ≤ i → i < k → (fs.ino i).type ≠ 0)
    (R := fun i t => 1 ≤ i ∧ i < sb.ninodes ∧ (fs.ino i).type = 0 ∧
      t.Holds sb (fs.setIno i (Dinode.fresh type)) hs ∧ Frame s t ∧
      (∀ j ∈ hs, t.buf j = s.buf j) ∧ Logged s t [sb.iblock i])
    ⟨h, Frame.refl s, fun _ _ => rfl, rfl, fun i h1 hi => absurd h1 (by omega)⟩ ?_) ?_
  · rintro i t hlo hhi ⟨ht, hf, ho, hlogt, htype⟩
    have hi : i < sb.ninodes := by omega
    have hlt : sb.iblock i < sb.datastart :=
      Nat.lt_trans (h.layout.iblock_lt hi).2 Layout.bmapstart_lt
    have hh' : t.HeldData sb fs hs := by
      intro j hj
      rw [ho j hj]
      exact hh j hj
    unfold iallocRound
    refine Wp.bind (ht.bread_meta_wp (hE.congr hlogt) hh' hlen hlt ?_)
    intro bp u v hon hr hfu hbi hdata hou hlog
    rw [Wp.bind_iff, bdata_wp, hdata, hr.ino i hi]
    by_cases hty : (fs.ino i).type = 0
    · rw [if_pos hty]
      refine storeHeld_wp ht (hE.congr hlogt) hi hon hr hfu hbi hou hlog _ ?_
      intro w hw hfw how hlw
      refine ⟨hlo, hi, hty, hw, hf.trans hfw, ?_, hlw.congr_left hlogt.symm⟩
      intro j hj
      rw [how j hj, ho j hj]
    rw [if_neg hty]
    refine Wp.bind (hon.brelse_wp (fun _ => by rw [hdata, hbi]) ?_)
    intro w hon' hf' ho' hlog'
    refine ⟨ht.step (hfu.trans hf') hon' hr fun c hc => hc, (hf.trans hfu).trans hf', ?_,
      (hlog'.trans hlog).trans hlogt, ?_⟩
    · intro j hj
      rw [ho' j hj, hou j hj, ho j hj]
    intro k h1 hk
    rcases Nat.lt_succ_iff_lt_or_eq.mp hk with hk | rfl
    · exact htype k h1 hk
    · exact hty
  · intro r t hr
    cases r with
    | some i =>
      obtain ⟨h1, hi, hty, hw, hf, ho, hl⟩ := hr
      exact hsome i t h1 hi hty hw hf ho hl
    | none =>
      obtain ⟨_, _, _, _, htype⟩ := hr
      refine hnone t ?_
      intro i h1 hi
      exact htype i h1 (by omega)

end

end

end Xv6.Kernel
