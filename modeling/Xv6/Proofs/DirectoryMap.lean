import Xv6.Lib.Runs
import Xv6.Machine.DirOps
import Xv6.Proofs.Directory
import Xv6.Proofs.FileWrite
/-!
# A directory is a map

What `dirlink` and the removal of entries do to a directory over any number of
transactions, and what `dirlookup` finds then.
-/

namespace Xv6.Kernel

open Xv6.Lib Function
open Blk

variable {k k' : Sys} {dp : InodeId} {E : Stop → Prop} {fs fs' : FS} {i : Nat} {name : Name}
  {op : DirOp}

/-! ## A reference that is given back -/

structure SameInodes (k k' : Sys) : Prop where
  blk : k'.blk = k.blk
  sb : k'.sb = k.sb
  ftable : k'.ftable = k.ftable
  proc : k'.proc = k.proc
  cur : k'.cur = k.cur
  ref : ∀ jp, (k'.icache jp).ref = (k.icache jp).ref
  used : ∀ jp, (k.icache jp).ref ≠ 0 → k'.icache jp = k.icache jp

/-- State `k'` has one more reference than `k`, which `iget` handed out for inode `v`. -/
structure Borrowed (k k' : Sys) (ip : InodeId) (v : Nat) : Prop where
  state : k' = k.setInode ip (k'.icache ip)
  ref : (k'.icache ip).ref = (k.icache ip).ref + 1
  inum : (k'.icache ip).inum = v
  entry : 0 < (k.icache ip).ref ∧ k'.icache ip = { k.icache ip with ref := (k.icache ip).ref + 1 } ∨
    (k.icache ip).ref = 0 ∧ (k'.icache ip).valid = false

section

variable {ip : InodeId} {v : Nat} {Q : InodeId → Sys → Prop}

theorem iget_borrows (hE : Tolerant E ∨ ∃ jp, (k.icache jp).ref = 0)
    (hQ : ∀ ip k', Borrowed k k' ip v → Q ip k') : Wp E (iget ROOTDEV v) Q k := by
  unfold iget
  rw [Wp.bind_iff, Wp.get_iff]
  cases hc : k.cached ROOTDEV v with
  | some ip =>
    have hfound := List.find?_some hc
    simp only [Bool.and_eq_true, decide_eq_true_eq] at hfound
    rw [Wp.bind_iff, putInode_wp, Wp.pure_iff]
    refine hQ ip _ ⟨?_, ?_, ?_, .inl ⟨hfound.1.1, ?_⟩⟩
    · rw [setInode_self]
    · rw [setInode_self]
    · rw [setInode_self]
      simpa using hfound.2
    · rw [setInode_self]
  | none =>
    cases he : k.emptyEntry with
    | some ip =>
      have hzero : (k.icache ip).ref = 0 := by simpa using List.find?_some he
      simp only
      rw [Wp.bind_iff, putInode_wp, Wp.pure_iff]
      refine hQ ip _ ⟨?_, ?_, ?_, .inr ⟨hzero, ?_⟩⟩
      · rw [setInode_self]
      · rw [setInode_self, hzero]
        rfl
      · rw [setInode_self]
      · rw [setInode_self]
    | none =>
      rcases hE with hE | ⟨jp, hz⟩
      · exact hE _ rfl
      have hused := List.find?_eq_none.mp he jp (List.mem_finRange _)
      simp [hz] at hused

section

variable (h : Borrowed k k' ip v)
include h

/-- `iput` frees nothing then: the reference is not the only one, or the inode has not
been read. -/
theorem iput_borrowed {Q : Unit → Sys → Prop} (hQ : ∀ k'', SameInodes k k'' → Q () k'') :
    Wp E (iput ip) Q k' := by
  have href := h.ref
  unfold iput ifreeIfLast
  rw [Wp.bind_iff, Wp.bind_iff, getInode_wp, if_neg]
  · rw [Wp.pure_iff, Wp.bind_iff, getInode_wp, putInode_wp]
    generalize hx : ({ k'.icache ip with ref := (k'.icache ip).ref - 1 } : Inode) = x
    have hxref : x.ref = (k.icache ip).ref := by
      rw [← hx]
      change (k'.icache ip).ref - 1 = _
      omega
    rw [h.state, setInode_setInode]
    refine hQ _ ⟨rfl, rfl, rfl, rfl, rfl, ?_, ?_⟩
    · intro jp
      by_cases hj : jp = ip
      · rw [hj, setInode_self, hxref]
      · exact congrArg Inode.ref (update_of_ne hj ..)
    intro jp hne
    rcases eq_or_ne jp ip with rfl | hj
    · rw [setInode_self]
      rcases h.entry with ⟨_, he⟩ | ⟨hz, _⟩
      · rw [← hx, he]
        simp
      · exact absurd hz hne
    · exact update_of_ne hj ..
  · rintro ⟨hone, hvalid, _⟩
    rcases h.entry with ⟨hpos, _⟩ | ⟨_, hinv⟩
    · omega
    · rw [hinv] at hvalid
      cases hvalid

theorem Borrowed.upd (hdp : 0 < (k.icache dp).ref) (t : Blk)
    (di : Dinode) : Borrowed (k.upd t dp di) (k'.upd t dp di) ip v := by
  rcases eq_or_ne ip dp with rfl | hip
  · obtain ⟨hpos, he⟩ := h.entry.resolve_right fun hx => by omega
    refine ⟨?_, ?_, ?_, .inl ⟨?_, ?_⟩⟩
    · rw [Sys.upd_icache_self]
      unfold Sys.upd
      rw [setInode_setInode]
      conv_lhs => rw [h.state]
      rw [withBlk_setInode, setInode_setInode, setInode_self]
    · rw [Sys.upd_icache_self, Sys.upd_icache_self]
      exact h.ref
    · rw [Sys.upd_icache_self]
      exact h.inum
    · rw [Sys.upd_icache_self]
      exact hpos
    · rw [Sys.upd_icache_self, Sys.upd_icache_self, he]
  · have hdp' : k'.icache dp = k.icache dp := by
      rw [h.state]
      exact update_of_ne (Ne.symm hip) ..
    refine ⟨?_, ?_, ?_, ?_⟩
    · rw [Sys.upd_icache_ne hip]
      unfold Sys.upd
      rw [hdp']
      conv_lhs => rw [h.state]
      unfold Sys.setInode Sys.withBlk
      simp only [update_comm hip]
    · rw [Sys.upd_icache_ne hip, Sys.upd_icache_ne hip]
      exact h.ref
    · rw [Sys.upd_icache_ne hip]
      exact h.inum
    · rw [Sys.upd_icache_ne hip, Sys.upd_icache_ne hip]
      exact h.entry

theorem Borrowed.blk : k'.blk = k.blk := by
  rw [h.state]
  rfl

theorem Borrowed.sb : k'.sb = k.sb := by
  rw [h.state]
  rfl

theorem Borrowed.hasInode (hk : k.HasInode fs dp i)
    (hpos : 0 < (k.icache dp).ref) : k'.HasInode fs dp i := by
  have hentry : (k'.icache dp).dev = (k.icache dp).dev ∧ (k'.icache dp).inum = (k.icache dp).inum ∧
      (k'.icache dp).di = (k.icache dp).di := by
    rcases eq_or_ne ip dp with rfl | hip
    · obtain ⟨_, he⟩ := h.entry.resolve_right fun hx => by omega
      rw [he]
      exact ⟨rfl, rfl, rfl⟩
    have hdp : k'.icache dp = k.icache dp := by
      rw [h.state]
      exact update_of_ne (Ne.symm hip) ..
    rw [hdp]
    exact ⟨rfl, rfl, rfl⟩
  refine ⟨?_, hentry.1.trans hk.dev, hentry.2.1.trans hk.inum, hk.copy.trans hentry.2.2.symm,
    ?_, ?_,
    hk.mapped⟩
  · rw [h.blk, h.sb]
    exact hk.holds
  · rw [h.sb]
    exact hk.own
  · rw [h.sb]
    exact hk.live

end

end

/-! ## One operation -/

/-- Inside a transaction that began in `k₀`, with the directory locked. -/
structure Held (k₀ k : Sys) (fs : FS) (dp : InodeId) (i : Nat) : Prop where
  inode : k.HasInode fs dp i
  alone : k.blk.log.Alone
  lock : (k.icache dp).lock = some k.blk.pid
  pos : 0 < (k.icache dp).ref
  ref : ∀ jp, (k.icache jp).ref = (k₀.icache jp).ref

section

variable {k₀ : Sys} {Q : Bool → Sys → Prop} {t : Blk} {inum : Nat}

/-- There is no room for the entry. -/
def DirOp.Full (fs : FS) (i : Nat) : DirOp → Prop
  | .link _ _ => fs.DirFull i
  | .unlink _ => False

theorem Held.upd (h : Held k₀ k fs dp i)
    (hk : (k.upd t dp (fs'.ino i)).HasInode fs' dp i) (hf : Frame k.blk t) :
    Held k₀ (k.upd t dp (fs'.ino i)) fs' dp i where
  inode := hk
  alone := ⟨hf.outstanding.trans h.alone.ops, hf.committing.trans h.alone.calm⟩
  lock := by
    rw [Sys.upd_icache_self, Sys.upd_blk, hf.pid]
    exact h.lock
  pos := by
    rw [Sys.upd_icache_self]
    exact h.pos
  ref := by
    intro jp
    rw [← h.ref jp]
    by_cases hj : jp = dp
    · rw [hj, Sys.upd_icache_self]
    · rw [Sys.upd_icache_ne hj]

theorem Held.same (h : Held k₀ k fs dp i) (hs : SameInodes k k') : Held k₀ k' fs dp i := by
  have hdp : k'.icache dp = k.icache dp := hs.used dp (ne_of_gt h.pos)
  refine ⟨⟨?_, ?_, ?_, ?_, ?_, ?_, h.inode.mapped⟩, ?_, ?_, ?_, ?_⟩
  · rw [hs.blk, hs.sb]
    exact h.inode.holds
  · rw [hdp]
    exact h.inode.dev
  · rw [hdp]
    exact h.inode.inum
  · rw [hdp]
    exact h.inode.copy
  · rw [hs.sb]
    exact h.inode.own
  · rw [hs.sb]
    exact h.inode.live
  · rw [hs.blk]
    exact h.alone
  · rw [hdp, hs.blk]
    exact h.lock
  · rw [hdp]
    exact h.pos
  intro jp
  rw [hs.ref]
  exact h.ref jp

/-- What an operation on directory `i` may lack besides space in the log, where the stops for
want of it are not let through: an entry of the inode cache, blocks for the entry and an
indirect block, and room in the directory. -/
structure DirOp.Able (E : Stop → Prop) (k : Sys) (fs : FS) (i : Nat) (op : DirOp) : Prop where
  entry : Tolerant E ∨ ∃ jp, (k.icache jp).ref = 0
  stock : Stock E k.sb fs 2
  full : op.Full fs i → E (.panic .dirlink)

theorem DirOp.call_wp (h : k.Rests fs dp i) (hlog : Tolerant E ∨ MAXOPBLOCKS < k.sb.nlog)
    (hE : op.Able E k fs i)
    (hrun : ∀ k', Held k k' fs dp i → Supply E k'.blk MAXOPBLOCKS → op.Able E k' fs i →
      Wp E (op.run dp) (fun r k'' => ∃ fs', Held k k'' fs' dp i ∧
        ∀ u, u.Rests fs' dp i → (∀ jp, (u.icache jp).ref = (k.icache jp).ref) → Q r u) k') :
    Wp E (op.call dp) Q k := by
  unfold DirOp.call
  rw [Wp.bind_iff, lift_wp]
  refine beginOp_wp h.holds h.quiet ?_
  intro t ht halone hempty hpid
  rw [Wp.bind_iff]
  have hsup := Log.Alone.supply ht halone hempty hlog
  refine ilock_wp (k := k.withBlk t) ht hsup h.entry h.live ?_
  intro u hu hfu hlogu
  rw [Wp.bind_iff]
  have hheld : Held k ((k.withBlk u).setInode dp ((k.icache dp).lockedBy t.pid (fs.ino i))) fs
      dp i := by
    refine ⟨h.unlocked.locked hu, ?_, ?_, ?_, ?_⟩
    · change u.log.Alone
      rw [hlogu]
      exact halone
    · rw [setInode_self]
      exact congrArg some hfu.pid.symm
    · rw [setInode_self]
      have hpos := h.entry.ref
      change 0 < (k.icache dp).ref
      omega
    intro jp
    by_cases hj : jp = dp
    · rw [hj, setInode_self]
      rfl
    · exact congrArg Inode.ref (update_of_ne hj ..)
  have hable : op.Able E ((k.withBlk u).setInode dp ((k.icache dp).lockedBy t.pid (fs.ino i)))
      fs i :=
    ⟨hE.entry.imp_right fun ⟨jp, hz⟩ => ⟨jp, (hheld.ref jp).trans hz⟩, hE.stock, hE.full⟩
  refine (hrun _ hheld (hsup.congr hlogu) hable).post ?_
  rintro r k' ⟨fs', hk', hQ⟩
  rw [Wp.bind_iff]
  have hpos := hk'.pos
  refine iunlock_wp hk'.lock (by omega) ?_
  rw [Wp.bind_iff, lift_wp]
  refine endOp_wp (s := k'.blk) hk'.inode.holds hk'.alone ?_
  intro w hw hquiet _
  rw [Wp.pure_iff]
  have hself : ((k'.setInode dp { k'.icache dp with lock := none }).withBlk w).icache dp =
      { k'.icache dp with lock := none } := setInode_self (k := k') _
  refine hQ _ ⟨hw, hquiet, ?_, hk'.inode.own, hk'.inode.live, hk'.inode.mapped⟩ ?_
  · refine ⟨?_, ?_, ?_, ?_, ?_⟩
    · exact (congrArg Inode.dev hself).trans hk'.inode.dev
    · exact (congrArg Inode.inum hself).trans hk'.inode.inum
    · rw [hself]
      exact hpos
    · exact congrArg Inode.lock hself
    · exact fun _ => (congrArg Inode.di hself).trans hk'.inode.copy.symm
  · intro jp
    rw [← hk'.ref jp]
    by_cases hj : jp = dp
    · rw [hj, hself]
    · exact congrArg Inode.ref (update_of_ne hj ..)

theorem Held.entry_upd (h : Held k₀ k fs dp i) (h' : Held k₀ k' fs' dp i)
    (hE : op.Able E k fs i) : Tolerant E ∨ ∃ jp, (k'.icache jp).ref = 0 :=
  hE.entry.imp_right fun ⟨jp, hz⟩ => ⟨jp, ((h'.ref jp).trans (h.ref jp).symm).trans hz⟩

/-- What an operation that returned `r` did to the directory. -/
def DirOp.Did (fs fs' : FS) (i : Nat) : DirOp → Bool → Prop
  | .link name inum, true => fs.lookup i name = none ∧
      fs'.table i = SlotTable.put (fs.table i) (SlotTable.free (fs.table i)) (some (name.key, inum))
  | .unlink name, true => ∃ v, fs.lookup i name = some v ∧
      fs'.table i = SlotTable.put (fs.table i) (SlotTable.index (fs.table i) name.key) none
  | .link name _, false => fs.lookup i name ≠ none ∧ fs' = fs
  | .unlink name, false => fs.lookup i name = none ∧ fs' = fs

def DirOp.Valid : DirOp → Prop
  | .link _ inum => 0 < inum ∧ inum < 2 ^ 16
  | .unlink _ => True

theorem link_wp (h : Held k₀ k fs dp i) (hdir : fs.Dir i) (hsup : Supply E k.blk MAXOPBLOCKS)
    (hE : (DirOp.link name inum).Able E k fs i) (hinum : 0 < inum ∧ inum < 2 ^ 16)
    (hQ : ∀ r k' fs', Held k₀ k' fs' dp i → fs'.Dir i → DirOp.Did fs fs' i (.link name inum) r →
      Q r k') : Wp E (dirlink dp name inum) Q k := by
  refine dirlink_wp h.inode hdir hsup hE.stock hE.full ?_ ?_
  · intro t v hv ht hf _
    have hheld := h.upd (h.inode.upd ht h.inode.own h.inode.live h.inode.mapped) hf
    refine iget_borrows (h.entry_upd hheld hE) fun ip k' hb => iput_borrowed hb fun k'' hs => ?_
    exact hQ false k'' fs (hheld.same hs) hdir ⟨by rw [hv]; simp, rfl⟩
  · intro t fs' hnone hk hf hre
    refine hQ true _ fs' (h.upd hk hf) hre.dir ⟨hnone, ?_⟩
    rw [hre.table, Dirent.slot_entry hinum.1 hinum.2]

theorem unlink_wp (h : Held k₀ k fs dp i) (hdir : fs.Dir i) (hsup : Supply E k.blk MAXOPBLOCKS)
    (hE : (DirOp.unlink name).Able E k fs i)
    (hQ : ∀ r k' fs', Held k₀ k' fs' dp i → fs'.Dir i → DirOp.Did fs fs' i (.unlink name) r →
      Q r k') : Wp E (removeEntry dp name) Q k := by
  unfold removeEntry
  refine Wp.bind (dirlookup_wp h.inode hdir (hsup.mono (Nat.zero_le _)) ?_ ?_)
  · intro t hnone ht hf _
    have hheld := h.upd (h.inode.upd ht h.inode.own h.inode.live h.inode.mapped) hf
    exact hQ false _ fs hheld hdir ⟨hnone, rfl⟩
  intro t v hv ht hf hlog
  have hheld := h.upd (h.inode.upd ht h.inode.own h.inode.live h.inode.mapped) hf
  refine iget_borrows (h.entry_upd hheld hE) fun ip k' hb => ?_
  rw [Wp.bind_iff]
  have hlt : SlotTable.index (fs.table i) name.key < direntRounds (fs.ino i).size := by
    rw [← FS.length_table]
    exact (List.getElem?_eq_some_iff.mp (SlotTable.getElem?_index hv)).1
  have hroom : ∀ n, WriteRoom E k'.sb k'.blk fs i (n * DIRENT) DIRENT := by
    intro n
    rw [hb.blk, hb.sb]
    exact .dirent (hsup.congr hlog) hE.stock
  refine writeDirent_wp (hb.hasInode hheld.inode hheld.pos) hdir (hroom _) (Nat.le_of_lt hlt) ?_ ?_
  · intro hbig
    have hsmall := h.inode.mapped.small
    have hsize := hdir.size
    have hle := Nat.mul_le_mul_right DIRENT (Nat.succ_le_of_lt hlt)
    rw [Nat.succ_mul] at hle
    omega
  intro u fs' hk' hfu hre
  rw [hb.blk] at hfu
  have hu : u.Holds k.sb fs' [] := by
    have hholds := hk'.holds
    rwa [Sys.upd_sb, hb.sb] at hholds
  have hown : Own k.sb fs' := by
    have := hk'.own
    rwa [Sys.upd_sb, hb.sb] at this
  have hlive : fs'.live k.sb i := by
    have := hk'.live
    rwa [Sys.upd_sb, hb.sb] at this
  have hheld' := hheld.upd (hheld.inode.upd hu hown hlive hk'.mapped) hfu
  refine Wp.bind (iput_borrowed (hb.upd hheld.pos u (fs'.ino i)) fun k'' hs => ?_)
  rw [Wp.pure_iff]
  refine hQ true k'' fs' (hheld'.same hs) hre.dir ⟨v, hv, ?_⟩
  rw [hre.table, Dirent.slot_zero]

theorem DirOp.call_able (h : k.Rests fs dp i) (hdir : fs.Dir i) (hop : op.Valid)
    (hlog : Tolerant E ∨ MAXOPBLOCKS < k.sb.nlog) (hE : op.Able E k fs i) :
    Wp E (op.call dp) (fun r k' => ∃ fs', k'.Rests fs' dp i ∧ fs'.Dir i ∧
      op.Did fs fs' i r ∧ ∀ jp, (k'.icache jp).ref = (k.icache jp).ref) k := by
  refine DirOp.call_wp h hlog hE fun k' hk' hsup hable => ?_
  have hdone : ∀ (r : Bool) k'' fs', Held k k'' fs' dp i → fs'.Dir i → op.Did fs fs' i r →
      ∃ fs', Held k k'' fs' dp i ∧ ∀ u : Sys, u.Rests fs' dp i →
        (∀ jp, (u.icache jp).ref = (k.icache jp).ref) → ∃ fs', u.Rests fs' dp i ∧ fs'.Dir i ∧
          op.Did fs fs' i r ∧ ∀ jp, (u.icache jp).ref = (k.icache jp).ref :=
    fun _ _ fs' hk'' hdir' hdid => ⟨fs', hk'', fun _ hu href => ⟨fs', hu, hdir', hdid, href⟩⟩
  cases op with
  | link name inum => exact link_wp hk' hdir hsup hable hop hdone
  | unlink name => exact unlink_wp hk' hdir hsup hable hdone

theorem DirOp.call_spec (h : k.Rests fs dp i) (hdir : fs.Dir i) (hop : op.Valid) :
    Wp (fun e => e.scarce = true ∨ e = .panic .dirlink ∧ op.Full fs i) (op.call dp)
      (fun r k' => ∃ fs', k'.Rests fs' dp i ∧ fs'.Dir i ∧
        op.Did fs fs' i r ∧ ∀ jp, (k'.icache jp).ref = (k.icache jp).ref) k :=
  have hE : Tolerant fun e => e.scarce = true ∨ e = .panic .dirlink ∧ op.Full fs i :=
    fun _ he => .inl he
  DirOp.call_able h hdir hop (.inl hE) ⟨.inl hE, .inl hE, fun hfull => .inr ⟨rfl, hfull⟩⟩

end

/-! ## Any number of operations -/

/-- What a directory has for `name` after the operations `done`: the latest of them
on the same key that succeeded decides. -/
def latest (name : Name) (initial : Option Nat) (done : List (DirOp × Bool)) : Option Nat :=
  match (done.filter fun x => x.2 = true ∧ x.1.name.key = name.key).getLast? with
  | some (.link _ inum, _) => some inum
  | some (.unlink _, _) => none
  | none => initial

def DirOp.value : DirOp → Option Nat
  | .link _ inum => some inum
  | .unlink _ => none

section

variable {r : Bool} {x : Option (InodeId × Nat)}

theorem latest_append (name : Name) (initial : Option Nat) (done : List (DirOp × Bool))
    (op : DirOp) (r : Bool) : latest name initial (done ++ [(op, r)]) =
      if r = true ∧ op.name.key = name.key then op.value else latest name initial done := by
  unfold latest
  rw [List.filter_append]
  by_cases hx : r = true ∧ op.name.key = name.key
  · rw [if_pos hx, List.filter_cons_of_pos (by simpa using hx), List.filter_nil,
      List.getLast?_concat]
    cases op with
    | link name inum => rfl
    | unlink name => rfl
  · rw [if_neg hx, List.filter_cons_of_neg (by simpa using hx), List.filter_nil, List.append_nil]

theorem DirOp.Did.distinct (h : op.Did fs fs' i r) (hd : (fs.table i).Distinct) :
    (fs'.table i).Distinct := by
  cases op with
  | link name inum =>
    cases r with
    | true =>
      rw [h.2]
      exact hd.put_free h.1
    | false =>
      rw [h.2]
      exact hd
  | unlink name =>
    cases r with
    | true =>
      obtain ⟨v, hv, htable⟩ := h
      rw [htable]
      have hlt := (List.getElem?_eq_some_iff.mp (SlotTable.getElem?_index hv)).1
      exact hd.put_none (Nat.le_of_lt hlt)
    | false =>
      rw [h.2]
      exact hd

theorem DirOp.Did.lookup (h : op.Did fs fs' i r) (hd : (fs.table i).Distinct) (name : Name) :
    fs'.lookup i name = if r = true ∧ op.name.key = name.key then op.value
      else fs.lookup i name := by
  cases r with
  | true =>
    cases op with
    | link name' inum =>
      unfold FS.lookup
      rw [h.2, SlotTable.find_put_free hd h.1]
      by_cases hk : name.key = name'.key
      · rw [if_pos hk, if_pos ⟨rfl, hk.symm⟩]
        rfl
      · rw [if_neg hk, if_neg fun hx => hk hx.2.symm]
    | unlink name' =>
      obtain ⟨v, hv, htable⟩ := h
      unfold FS.lookup
      rw [htable, SlotTable.find_put_none hd (SlotTable.getElem?_index hv)]
      by_cases hk : name.key = name'.key
      · rw [if_pos hk, if_pos ⟨rfl, hk.symm⟩]
        rfl
      · rw [if_neg hk, if_neg fun hx => hk hx.2.symm]
  | false =>
    rw [if_neg fun hx => by cases hx.1]
    cases op with
    | link name' inum => rw [h.2]
    | unlink name' => rw [h.2]

theorem dirlookup_finds (h : k.HasInode fs dp i) (hdir : fs.Dir i)
    (hrun : dirlookup dp name k = .ok (x, k')) :
    (x.map fun y => ((k'.icache y.1).inum, y.2)) = (fs.lookup i name).map fun v =>
      (v, SlotTable.index (fs.table i) name.key * DIRENT) := by
  have hE : Tolerant fun _ => True := fun _ _ => trivial
  have hwp : Wp (fun _ => True) (dirlookup dp name) (fun x k' =>
      (x.map fun y => ((k'.icache y.1).inum, y.2)) = (fs.lookup i name).map fun v =>
        (v, SlotTable.index (fs.table i) name.key * DIRENT)) k := by
    refine dirlookup_wp h hdir (.read hE) ?_ ?_
    · intro t hnone _ _ _
      rw [hnone]
      rfl
    intro t v hv _ _ _
    refine iget_borrows (.inl hE) fun ip k' hb => ?_
    rw [hv]
    simp only [Option.map_some, hb.inum]
  exact hwp.of_ok hrun

/-- A directory is a map from keys to inode numbers: after any operations, `dirlookup`
finds what the latest successful one on the key left, at the offset of the entry;
`dirlink` fails exactly if the key is there, and then changes nothing.  Every operation
returns if there is space in the log, an entry of the inode cache, two free blocks and room
in the directory. -/
theorem directory_is_map (h : k.Rests fs dp i) (hdir : fs.Dir i)
    (hdistinct : (fs.table i).Distinct) {s : DirOps}
    (hrun : Reaches (DirOps.step dp) (fun _ op => op.Valid) ⟨k, []⟩ s) :
    ∃ fs', s.sys.Rests fs' dp i ∧ fs'.Dir i ∧
      (∀ name, fs'.lookup i name = latest name (fs.lookup i name) s.done) ∧
      (∀ name v, fs'.lookup i name = some v →
        (fs'.table i)[SlotTable.index (fs'.table i) name.key]? = some (some (name.key, v))) ∧
      (∀ name k₁ x k₂, k₁.HasInode fs' dp i → dirlookup dp name k₁ = .ok (x, k₂) →
        (x.map fun y => ((k₂.icache y.1).inum, y.2)) = (fs'.lookup i name).map fun v =>
          (v, SlotTable.index (fs'.table i) name.key * DIRENT)) ∧
      ∀ op : DirOp, op.Valid →
        (∀ e, op.call dp s.sys = .error e →
          e.scarce = true ∨ e = .panic .dirlink ∧ op.Full fs' i) ∧
        (MAXOPBLOCKS < s.sys.sb.nlog → (∃ jp, (s.sys.icache jp).ref = 0) →
          2 ≤ s.sys.sb.freeCount fs' → ¬op.Full fs' i → ∃ r k', op.call dp s.sys = .ok (r, k')) ∧
        ∀ r k', op.call dp s.sys = .ok (r, k') → ∃ fs'', k'.Rests fs'' dp i ∧
          op.Did fs' fs'' i r ∧ ∀ jp, (k'.icache jp).ref = (s.sys.icache jp).ref := by
  have hinv : ∃ fs', s.sys.Rests fs' dp i ∧ fs'.Dir i ∧ (fs'.table i).Distinct ∧
      ∀ name, fs'.lookup i name = latest name (fs.lookup i name) s.done := by
    refine hrun.invariant (I := fun s => ∃ fs', s.sys.Rests fs' dp i ∧ fs'.Dir i ∧
      (fs'.table i).Distinct ∧ ∀ name, fs'.lookup i name = latest name (fs.lookup i name) s.done)
      ⟨fs, h, hdir, hdistinct, fun _ => rfl⟩ ?_
    rintro u v op ⟨fs', hu, hdir', hd, hlookup⟩ hop hstep
    unfold DirOps.step at hstep
    cases hcall : op.call dp u.sys with
    | error e =>
      rw [hcall] at hstep
      cases hstep
    | ok x =>
      obtain ⟨r, k'⟩ := x
      rw [hcall] at hstep
      cases hstep
      obtain ⟨fs'', hk', hdir'', hdid, _⟩ := (DirOp.call_spec hu hdir' hop).of_ok hcall
      refine ⟨fs'', hk', hdir'', hdid.distinct hd, fun name => ?_⟩
      rw [hdid.lookup hd, latest_append, hlookup]
  obtain ⟨fs', hs, hdir', hd, hlookup⟩ := hinv
  refine ⟨fs', hs, hdir', hlookup, fun name v hv => SlotTable.getElem?_index hv,
    fun name k₁ x k₂ hk1 hx => dirlookup_finds hk1 hdir' hx, fun op hop => ⟨?_, ?_, ?_⟩⟩
  · exact fun e he => (DirOp.call_spec hs hdir' hop).of_error he
  · intro hlog hentry hfree hroom
    obtain ⟨r, k', hok, _⟩ := (DirOp.call_able (E := fun _ => False) hs hdir' hop (.inr hlog)
      ⟨.inr hentry, .inr hfree, hroom⟩).returns
    exact ⟨r, k', hok⟩
  intro r k' hcall
  obtain ⟨fs'', hk', _, hdid, href⟩ := (DirOp.call_spec hs hdir' hop).of_ok hcall
  exact ⟨fs'', hk', hdid, href⟩

end

/-! ## The root directory of the small disk -/

theorem rootSys_rests : rootSys.Rests smallFS smallIp 1 where
  holds := (Blk.Holds.cold smallLayout 1 smallDisk).setLog rfl rfl rfl rfl
  quiet := ⟨rfl, rfl, rfl⟩
  entry := by
    refine ⟨rfl, rfl, Int.le_refl 1, rfl, ?_⟩
    intro _
    exact smallFS_root.symm
  own := smallFS_own
  live := smallFS_live_root
  mapped := smallFS_mapped smallFS_live_root

/-- `dirlink` of a new name, and again with another inode number: the second call is the
latest on the name and did not succeed, but `dirlookup` finds the first one's inode
number. -/
theorem dirlink_again : ∃ s ip off k',
    exec (DirOps.step smallIp) (fun _ _ => true) ⟨rootSys, []⟩ [.link [97] 2, .link [97] 1] =
      some s ∧ s.done.map Prod.snd = [true, false] ∧
    dirlookup smallIp [97] s.sys = .ok (some (ip, off), k') ∧ (k'.icache ip).inum = 2 := by
  have hrun : ((exec (DirOps.step smallIp) (fun _ _ => true) ⟨rootSys, []⟩
      [.link [97] 2, .link [97] 1]).bind fun s => (dirlookup smallIp [97] s.sys).toOption.map
        fun x => (s.done.map Prod.snd, x.1.map fun y => (x.2.icache y.1).inum)) =
      some ([true, false], some 2) := by
    decide +kernel
  obtain ⟨s, hs, hlook⟩ := Option.bind_eq_some_iff.mp hrun
  obtain ⟨x, k', hok, hx⟩ := Prog.exists_ok hlook
  simp only [Prod.mk.injEq, Option.map_eq_some_iff] at hx
  obtain ⟨hdone, ⟨ip, off⟩, rfl, hinum⟩ := hx
  exact ⟨s, ip, off, k', hs, hdone, hok, hinum⟩

/-- A name of twenty bytes is linked, the file removed and the name linked again: another
name with the same fourteen bytes finds the new entry, in the slot that became free. -/
theorem directory_is_map_long : ∃ s fs', exec (DirOps.step smallIp) (fun _ _ => true) ⟨rootSys, []⟩
      [.link (List.replicate 20 97) 2, .unlink [102], .link (List.replicate 20 97) 1] = some s ∧
    s.sys.Rests fs' smallIp 1 ∧ fs'.lookup 1 (List.replicate 14 97) = some 2 := by
  have hvalid : ∀ op ∈ [DirOp.link (List.replicate 20 97) 2, .unlink [102],
      .link (List.replicate 20 97) 1], ∀ _ : DirOps, true = true → op.Valid := by
    simp [DirOp.Valid]
  have hrun : (exec (DirOps.step smallIp) (fun _ _ => true) ⟨rootSys, []⟩
      [.link (List.replicate 20 97) 2, .unlink [102], .link (List.replicate 20 97) 1]).map
        (fun s => latest (List.replicate 14 97) none s.done) = some (some 2) := by
    decide +kernel
  obtain ⟨s, hs, hlatest⟩ := Option.map_eq_some_iff.mp hrun
  obtain ⟨fs', hrests, _, hlookup, _⟩ := directory_is_map rootSys_rests smallFS_dir
    smallFS_distinct (Reaches.refl.exec hvalid hs)
  refine ⟨s, fs', hs, hrests, ?_⟩
  rw [hlookup, ← hlatest]
  unfold FS.lookup
  rw [smallFS_table]
  rfl

end Xv6.Kernel
