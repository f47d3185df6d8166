import Mathlib.Data.Multiset.Count
import Xv6.Proofs.Writei
/-!
# The inode cache

Every reference that `iget` or `idup` handed out and `iput` has not taken back
is an element of a multiset `R`.  `Coherent c k fs R` says that the cache counts
and locks its entries accordingly, and that a valid entry is a copy of the
inode on disk.  `c` is the part of the state that inode functions leave alone.
-/

namespace Xv6.Kernel

open Xv6.Lib Multiset
open Blk

variable {ip : InodeId}

structure Ref where
  ip : InodeId
  inum : Nat
  locked : Bool
  deriving DecidableEq

abbrev Refs : Type := Multiset Ref

namespace Refs

def users (R : Refs) (ip : InodeId) : Nat := R.countP fun r => r.ip = ip

def lockers (R : Refs) (ip : InodeId) : Nat := R.countP fun r => r.ip = ip ∧ r.locked = true

variable {R : Refs} {r : Ref}

@[simp] theorem users_cons : users (r ::ₘ R) ip = users R ip + if r.ip = ip then 1 else 0 :=
  countP_cons _ _ _

@[simp] theorem lockers_cons :
    lockers (r ::ₘ R) ip = lockers R ip + if r.ip = ip ∧ r.locked = true then 1 else 0 :=
  countP_cons _ _ _

theorem users_ne_zero : users R ip ≠ 0 ↔ ∃ r ∈ R, r.ip = ip := by
  rw [← Nat.pos_iff_ne_zero]
  exact countP_pos

theorem lockers_le_users (R : Refs) (ip : InodeId) : lockers R ip ≤ users R ip := by
  unfold lockers users
  rw [countP_eq_card_filter, countP_eq_card_filter]
  exact card_le_card (monotone_filter_right R fun r h => h.1)

/-- The references to the other entries. -/
def away (R : Refs) (ip : InodeId) : Refs := R.filter fun r => r.ip ≠ ip

variable {jp : InodeId} (hj : jp ≠ ip)
include hj

theorem users_away : (R.away ip).users jp = R.users jp := by
  unfold users away
  rw [countP_filter]
  refine countP_congr rfl fun r _ => ?_
  exact propext ⟨And.left, fun h => ⟨h, h ▸ hj⟩⟩

theorem lockers_away : (R.away ip).lockers jp = R.lockers jp := by
  unfold lockers away
  rw [countP_filter]
  refine countP_congr rfl fun r _ => ?_
  exact propext ⟨And.left, fun h => ⟨h, h.1 ▸ hj⟩⟩

end Refs

/-- The part of the state that no function below the system calls changes. -/
structure Env where
  sb : Superblock
  ftable : FileId → File
  proc : ProcId → ProcFiles
  cur : ProcId
  pid : Nat
  ops : Int

def Sys.env (k : Sys) : Env where
  sb := k.sb
  ftable := k.ftable
  proc := k.proc
  cur := k.cur
  pid := k.blk.pid
  ops := k.blk.log.outstanding

structure Entry (sb : Superblock) (x : Inode) (r : Ref) : Prop where
  dev : x.dev = ROOTDEV
  inum : x.inum = r.inum
  range : 1 ≤ r.inum ∧ r.inum < sb.ninodes
  valid : r.locked = true → x.valid = true

structure Coherent (c : Env) (k : Sys) (fs : FS) (R : Refs) : Prop where
  env : k.env = c
  holds : k.blk.Holds c.sb fs []
  calm : k.blk.log.committing = false
  idle : c.ops < 1 → k.blk.log.lh = []
  own : Own c.sb fs
  mapped : ∀ i, fs.live c.sb i → Mapped fs i
  ref : ∀ ip, (k.icache ip).ref = R.users ip
  lock : ∀ ip, (k.icache ip).lock = if R.lockers ip = 0 then none else some c.pid
  alone : ∀ ip, R.lockers ip ≤ 1
  names : ∀ r ∈ R, Entry c.sb (k.icache r.ip) r
  key : ∀ ip jp, R.users ip ≠ 0 → R.users jp ≠ 0 →
    (k.icache ip).inum = (k.icache jp).inum → ip = jp
  copy : ∀ ip, R.users ip ≠ 0 → (k.icache ip).valid = true →
    (k.icache ip).di = fs.ino (k.icache ip).inum ∧ (fs.ino (k.icache ip).inum).type ≠ 0

/-- Entry `ip` may become `x`, with the references `R'` instead of `R`. -/
structure Change (c : Env) (k : Sys) (fs : FS) (R R' : Refs) (ip : InodeId) (x : Inode) : Prop where
  away : R'.away ip = R.away ip
  ref : x.ref = R'.users ip
  lock : x.lock = if R'.lockers ip = 0 then none else some c.pid
  alone : R'.lockers ip ≤ 1
  names : ∀ r ∈ R', r.ip = ip → Entry c.sb x r
  key : R'.users ip ≠ 0 → ∀ jp, jp ≠ ip → R.users jp ≠ 0 → (k.icache jp).inum ≠ x.inum
  copy : R'.users ip ≠ 0 → x.valid = true → x.di = fs.ino x.inum ∧ (fs.ino x.inum).type ≠ 0

namespace Coherent

variable {c : Env} {k : Sys} {fs fs' : FS} {R R' : Refs} {i : Nat} {l : Bool} {E : Stop → Prop}
  {t : Blk} {x : Inode}

theorem sb_eq (h : Coherent c k fs R) : k.sb = c.sb := by rw [← h.env]; rfl

theorem pid_eq (h : Coherent c k fs R) : k.blk.pid = c.pid := by rw [← h.env]; rfl

theorem ops_eq (h : Coherent c k fs R) : k.blk.log.outstanding = c.ops := by rw [← h.env]; rfl

section

variable (h : Coherent c k fs (⟨ip, i, l⟩ ::ₘ R))
include h

theorem entry : Entry c.sb (k.icache ip) ⟨ip, i, l⟩ :=
  h.names _ (mem_cons_self _ _)

theorem copy_of_ref (hv : (k.icache ip).valid = true) :
    (k.icache ip).di = fs.ino i ∧ (fs.ino i).type ≠ 0 := by
  have hc := h.copy ip (by simp) hv
  rwa [h.entry.inum] at hc

theorem live (hv : (k.icache ip).valid = true) : fs.live c.sb i :=
  ⟨h.entry.range.1, h.entry.range.2, (h.copy_of_ref hv).2⟩

end

theorem locked (h : Coherent c k fs (⟨ip, i, true⟩ ::ₘ R)) :
    (k.icache ip).di = fs.ino i ∧ fs.live c.sb i :=
  ⟨(h.copy_of_ref (h.entry.valid rfl)).1, h.live (h.entry.valid rfl)⟩

theorem env_step (h : Coherent c k fs R) (hf : Frame k.blk t) :
    ((k.withBlk t).setInode ip x).env = c := by
  rw [← h.env]
  change Env.mk _ _ _ _ t.pid t.log.outstanding = Env.mk _ _ _ _ k.blk.pid k.blk.log.outstanding
  rw [hf.pid, hf.outstanding]
  rfl

theorem step (h : Coherent c k fs R) (hb : t.Holds c.sb fs' [])
    (hf : Frame k.blk t) (hown : Own c.sb fs') (hmap : ∀ i, fs'.live c.sb i → Mapped fs' i)
    (hx : Change c k fs' R R' ip x)
    (hino : ∀ jp, jp ≠ ip → R.users jp ≠ 0 → (k.icache jp).valid = true →
      fs'.ino (k.icache jp).inum = fs.ino (k.icache jp).inum) :
    Coherent c ((k.withBlk t).setInode ip x) fs' R' := by
  have hself : ((k.withBlk t).setInode ip x).icache ip = x := Function.update_self ..
  have hne : ∀ jp, jp ≠ ip → ((k.withBlk t).setInode ip x).icache jp = k.icache jp :=
    fun jp hj => Function.update_of_ne hj ..
  have hu : ∀ jp, jp ≠ ip → R'.users jp = R.users jp := fun jp hj => by
    rw [← Refs.users_away hj, hx.away, Refs.users_away hj]
  have hl : ∀ jp, jp ≠ ip → R'.lockers jp = R.lockers jp := fun jp hj => by
    rw [← Refs.lockers_away hj, hx.away, Refs.lockers_away hj]
  exact {
    env := h.env_step hf
    holds := hb
    calm := hf.committing.trans h.calm
    idle := by
      intro hops
      have hlh := hf.idle (by rw [h.ops_eq]; exact hops)
      exact hlh.trans (h.idle hops)
    own := hown
    mapped := hmap
    ref := by
      intro jp
      by_cases hj : jp = ip
      · rw [hj, hself, hx.ref]
      · rw [hne jp hj, h.ref, hu jp hj]
    lock := by
      intro jp
      by_cases hj : jp = ip
      · rw [hj, hself, hx.lock]
      · rw [hne jp hj, h.lock, hl jp hj]
    alone := by
      intro jp
      by_cases hj : jp = ip
      · rw [hj]
        exact hx.alone
      · rw [hl jp hj]
        exact h.alone jp
    names := by
      intro r hr
      by_cases hj : r.ip = ip
      · rw [hj, hself]
        exact hx.names r hr hj
      · have hold : r ∈ R.away ip := hx.away ▸ mem_filter.mpr ⟨hr, hj⟩
        rw [hne _ hj]
        exact h.names r (mem_filter.mp hold).1
    key := by
      intro ap jp ha hj he
      rcases eq_or_ne ap ip with rfl | hai
      · by_cases hji : jp = ap
        · exact hji.symm
        rw [hself, hne jp hji] at he
        rw [hu jp hji] at hj
        exact absurd he.symm (hx.key ha jp hji hj)
      rw [hu ap hai] at ha
      rcases eq_or_ne jp ip with rfl | hji
      · rw [hself, hne ap hai] at he
        exact absurd he (hx.key hj ap hai ha)
      · rw [hu jp hji] at hj
        rw [hne ap hai, hne jp hji] at he
        exact h.key ap jp ha hj he
    copy := by
      intro jp hj hv
      rcases eq_or_ne jp ip with rfl | hji
      · rw [hself] at hv ⊢
        exact hx.copy hj hv
      rw [hu jp hji] at hj
      rw [hne jp hji] at hv ⊢
      rw [hino jp hji hj hv]
      exact h.copy jp hj hv }

end Coherent

end Xv6.Kernel
