import Xv6.Kernel.Super
import Xv6.Proofs.Recovery
/-!
# Starting the file system

`fsinit` on a machine that has just been switched on, when the log on disk is
empty.  `readsb` runs before the log record says which device the log is on;
the buffer cache does not look at the log, so it runs there as it would later.
-/

namespace Xv6.Kernel

open Xv6.Lib
open Xv6.Lib.RedoLog

def LogFree {α : Type} (f : BlkM α) : Prop :=
  ∀ s l, f (s.withLog l) = (f s).map fun r => (r.1, r.2.withLog l)

namespace LogFree

variable {α β : Type} {f : BlkM α} {g : α → BlkM β} {c : Prop} {t s : Blk} {a : α} {l : Log}

theorem pure (a : α) : LogFree (Pure.pure a : BlkM α) := fun _ _ => rfl

theorem bind (hf : LogFree f) (hg : ∀ a, LogFree (g a)) : LogFree (f >>= g) := by
  intro s l
  change Prog.andThen f g (s.withLog l) = (Prog.andThen f g s).map _
  unfold Prog.andThen
  rw [hf s l]
  cases f s with
  | error e => rfl
  | ok r => exact hg r.1 r.2 l

theorem ite {g : BlkM α} [Decidable c] (hf : LogFree f) (hg : LogFree g) :
    LogFree (if c then f else g) := by
  split
  · exact hf
  · exact hg

theorem bgetRef (dev b : Nat) : LogFree (bgetRef dev b) := by
  intro s l
  have hlookup : (s.withLog l).lookup dev b = s.lookup dev b := rfl
  have hvictim : (s.withLog l).victim = s.victim := rfl
  cases hl : s.lookup dev b with
  | some i =>
    rw [bgetRef_hit hl, bgetRef_hit (hlookup.trans hl)]
    rfl
  | none =>
    cases hv : s.victim with
    | some i =>
      rw [bgetRef_miss hl hv, bgetRef_miss (hlookup.trans hl) (hvictim.trans hv)]
      rfl
    | none =>
      rw [bgetRef_full hl hv, bgetRef_full (hlookup.trans hl) (hvictim.trans hv)]
      rfl

theorem acquiresleep (i : BufId) : LogFree (acquiresleep i) := by
  intro s l
  by_cases hl : (s.buf i).lock = none
  · rw [acquiresleep_free hl, acquiresleep_free (s := s.withLog l) hl]
    rfl
  · rw [acquiresleep_taken hl, acquiresleep_taken (s := s.withLog l) hl]
    rfl

theorem bfill (i : BufId) : LogFree (bfill i) := by
  intro s l
  rw [bfill_eq, bfill_eq]
  rfl

theorem bread (dev b : Nat) : LogFree (bread dev b) := by
  apply LogFree.bind
  · exact (bgetRef dev b).bind fun i => (acquiresleep i).bind fun _ => LogFree.pure i
  · intro i
    exact (bfill i).bind fun _ => LogFree.pure i

theorem bdrop (i : BufId) : LogFree (bdrop i) := by
  intro s l
  rw [bdrop_eq, bdrop_eq]
  change Except.ok ((), if decr32 (s.buf i).refcnt = 0 then _ else _) =
    Except.ok ((), (if decr32 (s.buf i).refcnt = 0 then _ else _ : Blk).withLog l)
  split <;> rfl

theorem brelse (i : BufId) : LogFree (brelse i) := by
  apply LogFree.bind
  · exact fun _ _ => rfl
  intro held
  apply LogFree.ite
  · apply LogFree.bind
    · exact fun _ _ => rfl
    · exact fun _ => bdrop i
  · exact fun _ _ => rfl

theorem readsb (dev : Nat) : LogFree (readsb dev) := by
  apply LogFree.bind (bread dev 1)
  intro i
  apply LogFree.bind
  · exact fun _ _ => rfl
  · intro d
    exact (brelse i).bind fun _ => LogFree.pure _

theorem transfer (hf : LogFree f) (h : f (s.withLog l) = .ok (a, t)) :
    ∃ u, f s = .ok (a, u) ∧ u.withLog l = t ∧ u.log = s.log := by
  have hself : f s = (f s).map fun r => (r.1, r.2.withLog s.log) := hf s s.log
  rw [hf s l] at h
  cases hfs : f s with
  | error e =>
    rw [hfs] at h
    cases h
  | ok r =>
    rw [hfs] at h hself
    cases h
    refine ⟨r.2, rfl, rfl, ?_⟩
    have hr : r = (r.1, r.2.withLog s.log) := Except.ok.inj hself
    have hr2 : r.2 = r.2.withLog s.log := congrArg Prod.snd hr
    rw [hr2]
    rfl

end LogFree

section Fsinit

variable {pid dev : Nat} {disk : Nat → Block} {E : Stop → Prop} {sb : Superblock}
  {Q : Superblock → Blk → Prop}

theorem readsb_powerOn (pid : Nat) (disk : Nat → Block) (hdev : dev ≠ 0) :
    ∃ t, readsb dev (powerOn pid disk) = .ok (Superblock.decode (disk 1), t) ∧
      t.log = (powerOn pid disk).log ∧
      ∀ l : Log, l.dev = dev → (t.withLog l).At disk noStale [] noExtra [] ∧
        t.pid = pid ∧ t.writes = [] := by
  have hat : (started pid disk dev 0 0).At disk noStale [] noExtra [] := started_at pid disk hdev
  have hvictim : ∃ i, (started pid disk dev 0 0).victim = some i := by
    apply hat.sound.exists_victim []
    · intro i _
      simp [noExtra]
    · decide
  have hrun : Wp (fun _ => False) (readsb dev) (fun sb t => sb = Superblock.decode (disk 1) ∧
      t.At disk noStale [] noExtra [] ∧ t.log.dev = dev ∧ t.pid = pid ∧ t.writes = [])
      (started pid disk dev 0 0) := by
    unfold readsb
    rw [Wp.bind_iff]
    refine hat.bread rfl (by simp) (fun _ _ => by simp [noExtra]) (.inr (.inl hvictim)) ?_
    intro i t1 hat1 hf1 hdata1
    have hdata : (t1.buf i).data = disk 1 := hdata1 (.inr fun h => h)
    rw [Wp.bind_iff, bdata_wp]
    refine Wp.bind (hat1.brelse_wp (by simp) ?_ ?_)
    · intro _
      rw [hf1.blockno, hdata]
    intro t2 hat2 hs2 hw2 _
    rw [List.erase_cons_head] at hat2
    rw [Wp.pure_iff]
    refine ⟨congrArg _ hdata, hat2, ?_, hs2.pid.trans hf1.pid, hw2.trans hf1.writes⟩
    rw [hs2.log, hf1.log]
    rfl
  obtain ⟨sb, t, hreturn, rfl, hat', hdev', hpid, hw⟩ := hrun.returns
  obtain ⟨u, hu, rfl, hlog⟩ := (LogFree.readsb dev).transfer (s := powerOn pid disk) hreturn
  refine ⟨u, hu, hlog, ?_⟩
  intro l hl
  exact ⟨hat'.setLog (hl.trans hdev'.symm), hpid, hw⟩

def bootLog (dev : Nat) (sb : Superblock) : Log where
  start := sb.logstart
  size := sb.nlog
  outstanding := 0
  committing := false
  dev := dev
  lh := []

/-- `fsinit` of a disk whose log is empty: only the header is written, and
still names nothing. -/
theorem fsinit_wp (hdev : dev ≠ 0) (hsb : Superblock.decode (disk 1) = sb)
    (hmagic : sb.magic ≠ FSMAGIC → E (.panic .invalidFileSystem))
    (hempty : headNames (disk sb.logstart) = [])
    (hQ : ∀ t, t.At (Function.update disk sb.logstart (headStore [] (disk sb.logstart)))
        noStale [] noExtra [] →
      t.log = bootLog dev sb → t.pid = pid → sb.magic = FSMAGIC → Q sb t) :
    Wp E (fsinit dev) Q (powerOn pid disk) := by
  obtain ⟨t, hread, hlog, hat⟩ := readsb_powerOn pid disk hdev
  obtain ⟨hat1, hpid, _⟩ := hat (bootLog dev sb) rfl
  have hset : t.withLog { t.log with start := sb.logstart, size := sb.nlog, dev := dev } =
      t.withLog (bootLog dev sb) := by
    rw [hlog]
    rfl
  unfold fsinit
  rw [Wp.bind_iff]
  unfold Wp
  rw [hread, hsb]
  change Wp E _ Q t
  rw [Wp.ite_iff]
  refine ⟨fun hne => hmagic hne, ?_⟩
  intro hne
  have hmagic' : sb.magic = FSMAGIC := not_not.mp hne
  unfold initlog
  rw [Wp.bind_iff, if_neg (by decide), Wp.bind_iff, Wp.modify_iff, hset]
  unfold recoverFromLog
  refine Wp.bind (readHead_wp hat1 (fun h => h) ?_)
  intro t2 hat2 hlog2 hpid2 _
  have hlog2' : t2.log = bootLog dev sb := by
    rw [hlog2]
    change (bootLog dev sb).withHead (headNames (disk sb.logstart)) = _
    rw [hempty]
    rfl
  -- nothing to install
  have hinstall : installTrans t2 = .ok ((), t2) := by
    change Prog.forRange installBlock 0 t2.log.lh.length t2 = _
    rw [hlog2']
    rfl
  rw [Wp.bind_iff]
  unfold Wp
  rw [hinstall]
  change Wp E _ _ t2
  rw [Wp.bind_iff, clearHead_wp, hlog2']
  have hat3 : (t2.withLog ((bootLog dev sb).withHead [])).At disk noStale [] noExtra [] :=
    hat2.setLog (by rw [hlog2']; rfl)
  refine writeHead_wp hat3 (fun h => h) (fun _ _ => rfl) ?_ ?_
  · apply hat3.sound.exists_victim []
    · intro i _
      simp [noExtra]
    · decide
  intro t4 hat4 hlog4 hpid4 _
  exact hQ t4 hat4 hlog4 (hpid4.trans (hpid2.trans hpid)) hmagic'

end Fsinit

end Xv6.Kernel
