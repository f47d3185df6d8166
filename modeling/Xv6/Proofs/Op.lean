import Xv6.Proofs.FileBytes
/-!
# A file system call between two commits

`begin_op` and `end_op` of the only call in progress, and locking an inode inside
it.  `Sys.Rests` is what holds between two such calls.
-/

namespace Xv6.Kernel

open Xv6.Lib
open Xv6.Lib.RedoLog
open Blk

variable {fs : FS} {E : Stop → Prop}

/-- No call is in progress and nothing is recorded. -/
structure Log.Quiet (l : Log) : Prop where
  ops : l.outstanding = 0
  calm : l.committing = false
  empty : l.lh = []

/-- The log record in the only call in progress. -/
structure Log.Alone (l : Log) : Prop where
  ops : l.outstanding = 1
  calm : l.committing = false

section

variable {s : Blk} {sb : Superblock} {Q : Unit → Blk → Prop} {hs : List BufId} {l : Log}

theorem Blk.Holds.setLog (h : s.Holds sb fs hs)
    (hstart : l.start = s.log.start) (hsize : l.size = s.log.size) (hdev : l.dev = s.log.dev)
    (hlh : l.lh = s.log.lh) : (s.withLog l).Holds sb fs hs where
  layout := h.layout
  start := hstart.trans h.start
  size := hsize.trans h.size
  dev := hdev.trans h.dev
  view := by
    obtain ⟨v, hon, hr⟩ := h.view
    refine ⟨v, ⟨?_, hon.log.sublist hstart hsize (by rw [withLog_log, hlh])⟩, hr⟩
    rw [withLog_log, hlh]
    exact hon.view.setLog hdev

theorem Blk.Holds.setPid (h : s.Holds sb fs []) (pid : Nat) :
    ({ s with pid := pid } : Blk).Holds sb fs [] where
  layout := h.layout
  start := h.start
  size := h.size
  dev := h.dev
  view := by
    obtain ⟨v, ⟨hat, hlog⟩, hr⟩ := h.view
    have hs := hat.sound
    exact ⟨v, ⟨⟨⟨hs.lruNodup, hs.lruMem, hs.devNe, hs.key, hs.ref, hs.locked, hs.pinned⟩,
      hat.hsNodup, hat.lock, hat.held, hat.disk, hat.cached⟩, hlog⟩, hr⟩

theorem beginOp_wp (h : s.Holds sb fs []) (hq : s.log.Quiet)
    (hQ : ∀ t, t.Holds sb fs [] → t.log.Alone → t.log.lh = [] → t.pid = s.pid → Q () t) :
    Wp E beginOp Q s := by
  have hpass : s.log.beginPass = some { s.log with outstanding := s.log.outstanding + 1 } := by
    unfold Log.beginPass
    rw [if_neg (by rw [hq.calm]; exact Bool.false_ne_true), if_neg]
    rw [hq.empty, hq.ops]
    decide
  unfold beginOp
  rw [Wp.bind_iff, getLog_wp, hpass]
  change Q () (s.withLog _)
  refine hQ _ (h.setLog rfl rfl rfl rfl) ⟨?_, hq.calm⟩ hq.empty rfl
  change s.log.outstanding + 1 = 1
  rw [hq.ops]
  rfl

theorem endOp_wp (h : s.Holds sb fs []) (ha : s.log.Alone)
    (hQ : ∀ t, t.Holds sb fs [] → t.log.Quiet → t.pid = s.pid → Q () t) : Wp E endOp Q s := by
  have hzero : s.log.outstanding - 1 = 0 := by
    rw [ha.ops]
    rfl
  have hpass : s.log.endPass =
      .ok ({ s.log with outstanding := s.log.outstanding - 1, committing := true }, true) := by
    unfold Log.endPass
    rw [if_neg (by rw [ha.calm]; exact Bool.false_ne_true), if_pos hzero]
  have hs := h.setLog
    (l := { s.log with outstanding := s.log.outstanding - 1, committing := true }) rfl rfl rfl rfl
  unfold endOp
  rw [Wp.bind_iff, getLog_wp, hpass]
  simp only
  rw [Wp.bind_iff, putLog_wp, if_pos trivial, Wp.bind_iff]
  generalize hu : s.withLog _ = u at hs ⊢
  have hlog : u.log = { s.log with outstanding := s.log.outstanding - 1, committing := true } := by
    rw [← hu, withLog_log]
  have hpid : u.pid = s.pid := by rw [← hu, withLog_pid]
  have hdone : ∀ t : Blk, t.Holds sb fs [] → t.log = u.log.withHead [] → t.pid = u.pid →
      Q () (t.withLog t.log.committed) := by
    intro t ht hl hp
    refine hQ _ (ht.setLog rfl rfl rfl rfl) ⟨?_, rfl, ?_⟩ (hp.trans hpid)
    · change t.log.outstanding = 0
      rw [hl, hlog]
      exact hzero
    · change t.log.lh = []
      rw [hl]
      rfl
  by_cases hnil : u.log.lh = []
  · unfold commit
    rw [Wp.bind_iff, getLog_wp, hnil, if_neg (by simp), Wp.pure_iff]
    refine hdone u hs ?_ rfl
    unfold Log.withHead
    rw [← hnil]
  obtain ⟨v, hon, hr⟩ := hs.view
  refine commit_wp hon.view hon.log hnil ?_
  intro t v' ws hat hout hl hp _ _
  refine hdone t ?_ hl hp
  refine ⟨hs.layout, by rw [hl]; exact hs.start, by rw [hl]; exact hs.size,
    by rw [hl]; exact hs.dev, v', ⟨?_, ?_⟩, ?_⟩
  · rw [hl]
    exact hat
  · refine hon.log.sublist (by rw [hl]; rfl) (by rw [hl]; rfl) ?_
    rw [hl]
    exact List.nil_sublist _
  · refine hr.congr hs.layout ?_
    intro b hb
    exact hout b (hs.not_inLog hb)

end

/-! ## Locking an inode -/

/-- Entry `ip` is referred to, not locked, and not a wrong copy of the allocated
inode `i`. -/
structure Inode.Free (x : Inode) (fs : FS) (i : Nat) : Prop where
  dev : x.dev = ROOTDEV
  inum : x.inum = i
  ref : 1 ≤ x.ref
  unlocked : x.lock = none
  copy : x.valid = true → x.di = fs.ino i

def Inode.lockedBy (x : Inode) (pid : Nat) (di : Dinode) : Inode :=
  { x with lock := some pid, valid := true, di := di }

/-- Entry `ip` of the inode cache is for the allocated inode `i` of `fs`, and nobody
has locked it. -/
structure Sys.Unlocked (k : Sys) (fs : FS) (ip : InodeId) (i : Nat) : Prop where
  holds : k.blk.Holds k.sb fs []
  entry : (k.icache ip).Free fs i
  own : Own k.sb fs
  live : fs.live k.sb i
  mapped : Mapped fs i

section

variable {k : Sys} {ip : InodeId} {i n p : Nat} {Q : Unit → Sys → Prop} {x : Inode} {t : Blk}

theorem putInode_wp : Wp E (putInode ip x) Q k ↔ Q () (k.setInode ip x) := Iff.rfl

theorem setInode_setInode (x y : Inode) : (k.setInode ip x).setInode ip y = k.setInode ip y := by
  unfold Sys.setInode
  simp only [Function.update_idem]

@[simp] theorem setInode_self (x : Inode) : (k.setInode ip x).icache ip = x :=
  Function.update_self ..

theorem withBlk_setInode (x : Inode) (t : Blk) :
    (k.setInode ip x).withBlk t = (k.withBlk t).setInode ip x := rfl

theorem Sys.Unlocked.locked (h : k.Unlocked fs ip i) (ht : t.Holds k.sb fs []) :
    ((k.withBlk t).setInode ip ((k.icache ip).lockedBy p (fs.ino i))).HasInode fs ip i where
  holds := ht
  dev := by
    rw [setInode_self]
    exact h.entry.dev
  inum := by
    rw [setInode_self]
    exact h.entry.inum
  copy := by
    rw [setInode_self]
    rfl
  own := h.own
  live := h.live
  mapped := h.mapped

theorem acquireInode_wp (hfree : (k.icache ip).lock = none) : Wp E (acquireInode ip) Q k ↔
      Q () (k.setInode ip { k.icache ip with lock := some k.blk.pid }) := by
  unfold acquireInode
  rw [Wp.bind_iff, getInode_wp, Wp.bind_iff]
  change Wp E (if (k.icache ip).lock = none then _ else _) Q k ↔ _
  rw [if_pos hfree]
  exact putInode_wp

theorem ilock_wp (hb : k.blk.Holds k.sb fs []) (hE : Supply E k.blk n)
    (hx : (k.icache ip).Free fs i) (hi : fs.live k.sb i)
    (hQ : ∀ t, t.Holds k.sb fs [] → Frame k.blk t → t.log = k.blk.log →
      Q () ((k.withBlk t).setInode ip ((k.icache ip).lockedBy k.blk.pid (fs.ino i)))) :
    Wp E (ilock ip) Q k := by
  unfold ilock
  rw [Wp.bind_iff, getInode_wp]
  have href : ¬(k.icache ip).ref < 1 := by
    have := hx.ref
    omega
  rw [if_neg href, Wp.bind_iff, acquireInode_wp hx.unlocked]
  refine Wp.ite_iff.mpr ⟨fun hv => ?_, fun hv => ?_⟩
  · -- not read from the disk yet
    rw [Wp.bind_iff, getSb_wp, Wp.bind_iff, lift_wp, hx.dev, hx.inum]
    refine loadDinode_wp hb hE (by intro j hj; simp at hj) (by simp) hi.2.1 ?_
    intro t ht hf _ hlog
    rw [Wp.bind_iff, getInode_wp, Wp.bind_iff, putInode_wp]
    refine Wp.ite_iff.mpr ⟨fun h0 => absurd h0 hi.2.2, fun _ => ?_⟩
    rw [Wp.pure_iff]
    have hres := hQ t ht hf hlog
    rw [withBlk_setInode, setInode_setInode, setInode_self]
    exact hres
  · rw [Wp.pure_iff]
    have hvalid : (k.icache ip).valid = true := by simpa using hv
    have hres := hQ k.blk hb (Frame.refl _) rfl
    unfold Inode.lockedBy at hres
    rw [← hx.copy hvalid, ← hvalid] at hres
    exact hres

theorem iunlock_wp (hlock : (k.icache ip).lock = some k.blk.pid) (href : 1 ≤ (k.icache ip).ref)
   (hQ : Q () (k.setInode ip { k.icache ip with lock := none })) : Wp E (iunlock ip) Q k := by
  unfold iunlock
  rw [Wp.bind_iff]
  change Wp E (if _ then _ else _) Q k
  rw [if_neg]
  · exact hQ
  rintro (hne | hlt)
  · exact hne hlock
  · omega

end

end Xv6.Kernel
