import Xv6.Proofs.Create
import Xv6.Proofs.FileWrite
/-!
# `open`

What `sys_open` leaves behind when it returns -1.
-/

namespace Xv6.Kernel

open Xv6.Lib Function
open Blk

variable {c : Env} {k : Sys} {fs : FS} {R : Refs} {E : Stop → Prop} {i : Nat}

/-! ## A call of its own -/

namespace Coherent

section

variable (h : Coherent c k fs R) {Q : Unit → Sys → Prop} {t : Blk}
include h

theorem proc_eq : k.proc = c.proc := by rw [← h.env]; rfl

theorem ftable_eq : k.ftable = c.ftable := by rw [← h.env]; rfl

theorem setOps (ht : t.Holds c.sb fs []) (hpid : t.pid = k.blk.pid)
    (hcalm : t.log.committing = false) (hidle : t.log.outstanding < 1 → t.log.lh = []) :
    Coherent { c with ops := t.log.outstanding } (k.withBlk t) fs R where
  env := by
    rw [← h.env]
    change Env.mk _ _ _ _ t.pid _ = Env.mk _ _ _ _ k.blk.pid _
    rw [hpid]
    rfl
  holds := ht
  calm := hcalm
  idle := hidle
  own := h.own
  mapped := h.mapped
  ref := h.ref
  lock := h.lock
  alone := h.alone
  names := h.names
  key := h.key
  copy := h.copy

theorem beginOp_wp (hq : k.blk.log.Quiet)
    (hQ : ∀ t, Coherent { c with ops := 1 } (k.withBlk t) fs R → Q () (k.withBlk t)) :
    Wp E (lift beginOp) Q k := by
  rw [lift_wp]
  refine Xv6.Kernel.beginOp_wp h.holds hq fun t ht halone hlh hpid => ?_
  have hk := h.setOps ht hpid halone.calm fun _ => hlh
  rw [halone.ops] at hk
  exact hQ t hk

theorem endOp_wp (hops : c.ops = 1)
    (hQ : ∀ k', Coherent { c with ops := 0 } k' fs R → k'.blk.log.Quiet → Q () k') :
    Wp E (lift endOp) Q k := by
  rw [lift_wp]
  refine Xv6.Kernel.endOp_wp h.holds ⟨h.ops_eq.trans hops, h.calm⟩ fun t ht hquiet hpid => ?_
  have hk := h.setOps ht hpid hquiet.calm fun _ => hquiet.empty
  rw [hquiet.ops] at hk
  exact hQ _ hk hquiet

theorem setFile (f : FileId) (x : File) :
    Coherent { c with ftable := update c.ftable f x } (k.setFile f x) fs R where
  env := by
    rw [← h.env]
    rfl
  holds := h.holds
  calm := h.calm
  idle := h.idle
  own := h.own
  mapped := h.mapped
  ref := h.ref
  lock := h.lock
  alone := h.alone
  names := h.names
  key := h.key
  copy := h.copy

end

end Coherent

theorem Blk.Holds.ino_eq {s : Blk} {sb : Superblock} {fs' : FS} (h : s.Holds sb fs [])
    (h' : s.Holds sb fs' []) (hq : s.log.Quiet) (hi : i < sb.ninodes) :
    fs'.ino i = fs.ino i := by
  obtain ⟨v, hon, hr⟩ := h.view
  obtain ⟨v', hon', hr'⟩ := h'.view
  have hb : sb.iblock i ∉ s.log.lh := by
    rw [hq.empty]
    exact List.not_mem_nil
  rw [← hr.ino i hi, ← hr'.ino i hi, ← hon.view.disk _ hb, ← hon'.view.disk _ hb]

/-! ## The inode that is opened -/

def Makes (k : Sys) (fs : FS) (path : Path) (omode : UInt32) : Prop :=
  omode &&& O_CREATE ≠ 0 ∧ ∃ j name,
    fs.target true (walkStart k path.bytes) (components path.bytes) = some (j, name) ∧
      fs.lookup j name = none

/-- Inode `i` of `fs'` is a file that `fs` does not have. -/
structure Made (sb : Superblock) (fs fs' : FS) (i : Nat) : Prop where
  lt : i < sb.ninodes
  free : (fs.ino i).type = 0
  file : (fs'.ino i).type = T_FILE
  link : (fs'.ino i).nlink = 1

/-- The inode is locked; everything else is as it was, except for a new file. -/
def Opened (c : Env) (k : Sys) (fs : FS) (R : Refs) (makes : Prop) : Option InodeId → Prop
  | none => ¬makes ∧ Coherent c k fs R
  | some ip => ∃ i fs', Coherent c k fs' (⟨ip, i, true⟩ ::ₘ R) ∧
      (¬makes ∧ fs' = fs ∨ makes ∧ Made c.sb fs fs' i)

section

variable {path : Path} {omode : UInt32} {Q : Int → Sys → Prop} {ip : InodeId} {k' : Sys}
  {fs' : FS} {makes : Prop}

theorem createExisting_wp {ip dp : InodeId} {j : Nat} {type : Int16}
    (h : Coherent c k fs (⟨ip, i, false⟩ ::ₘ ⟨dp, j, true⟩ ::ₘ R))
    (hl : ∀ ip, R.lockers ip = 0) (hheld : NoOrphans c.sb fs R) {Q : Option InodeId → Sys → Prop}
    (hnone : ∀ k', Coherent c k' fs R → Q none k')
    (hsome : ∀ k', Coherent c k' fs (⟨ip, i, true⟩ ::ₘ R) → Q (some ip) k') :
    Wp (fun _ => True) (createExisting dp ip type) Q k := by
  have hE : Tolerant fun _ => True := fun _ _ => trivial
  rw [Multiset.cons_swap] at h
  have hkeep : Refs.users (⟨ip, i, false⟩ ::ₘ R) dp ≠ 0 ∨ (fs.ino j).nlink ≠ 0 := by
    refine h.keeps ?_ h.locked.2
    intro v hv hz
    obtain ⟨r, hr, hri⟩ := hheld v hv hz
    exact ⟨r, Multiset.mem_cons_of_mem hr, hri⟩
  unfold createExisting
  refine Wp.bind (h.iunlockput_wp hkeep fun k₁ hk1 _ => ?_)
  refine Wp.bind (hk1.ilock_free_wp (.read hE) (hl ip) (fun _ => trivial) fun k₂ hk2 _ => ?_)
  rw [Wp.bind_iff, getInode_wp]
  refine Wp.ite_iff.mpr ⟨fun _ => hsome k₂ hk2, fun _ => ?_⟩
  refine Wp.bind (hk2.iunlockput_wp (hk2.keeps hheld hk2.locked.2) fun k3 hk3 _ => ?_)
  rw [Wp.pure_iff]
  exact hnone k3 hk3

theorem create_wp (h : Walks k fs R) (hmode : omode &&& O_CREATE ≠ 0) :
    Wp (fun _ => True) (create path T_FILE 0 0)
      (fun r k' => Opened k.env k' fs R (Makes k fs path omode) r) k := by
  have hE : Tolerant fun _ => True := fun _ _ => trivial
  unfold create nameiparent
  refine Wp.bind (namexBytes_wp h (.read hE) (.inl hE) (fun _ => trivial) ?_)
  intro r k₁ harr
  obtain ⟨rfl, hnone, hk1⟩ | ⟨dp, d, name, rfl, hgoal, hk1⟩ := harr.elim
  · refine ⟨?_, hk1⟩
    rintro ⟨_, j, name, hj, _⟩
    rw [hnone] at hj
    cases hj
  -- the parent directory exists
  rw [Wp.bind_iff]
  refine hk1.ilock_free_wp (.read hE) (h.unlocked dp) (fun _ => trivial) fun k₂ hk2 _ => ?_
  have hlive := hk2.locked.2
  have htype := FS.target_parent hgoal
  have hdir := h.graph.dir d hlive htype
  refine Wp.bind (hk2.dirlookup_wp (.read hE) (.inl hE) hdir ?_ ?_ ?_)
  · intro j hj
    refine h.graph.range d hlive name j ?_
    unfold FS.enter
    rw [if_pos htype, hj]
  · intro k3 hlook hk3 _
    refine hk3.createNew_wp (fun _ => trivial) h.unlocked h.orphans hdir hlook (by decide)
      (by decide) ?_
    intro ip i k4 fs' _ hi hfree hfile hlink hk4
    exact ⟨i, fs', hk4, .inr ⟨⟨hmode, d, name, hgoal, hlook⟩, hi, hfree, hfile, hlink⟩⟩
  intro k3 j jp hlook hk3 _
  have hold : ¬Makes k fs path omode := by
    rintro ⟨_, d', name', hgoal', hnone⟩
    rw [hgoal] at hgoal'
    cases hgoal'
    rw [hlook] at hnone
    cases hnone
  refine createExisting_wp hk3 h.unlocked h.orphans (fun k4 hk4 => ⟨hold, hk4⟩) ?_
  exact fun k4 hk4 => ⟨j, fs, hk4, .inl ⟨hold, rfl⟩⟩

theorem openInode_wp (h : Walks k fs R) : Wp (fun _ => True) (openInode path omode)
    (fun r k' => Opened k.env k' fs R (Makes k fs path omode) r) k := by
  have hE : Tolerant fun _ => True := fun _ _ => trivial
  refine Wp.ite_iff.mpr ⟨fun hmode => create_wp h hmode, fun hmode => ?_⟩
  have hold : ¬Makes k fs path omode := fun hm => hmode hm.1
  unfold namei
  rw [Wp.bind_iff]
  refine Wp.bind (namexBytes_wp h (.read hE) (.inl hE) (fun _ => trivial) ?_)
  intro r k₁ harr
  rw [Wp.pure_iff]
  obtain ⟨rfl, _, hk1⟩ | ⟨ip, i, name, rfl, _, hk1⟩ := harr.elim
  · exact ⟨hold, hk1⟩
  simp only [Option.map_some]
  rw [Wp.bind_iff]
  refine hk1.ilock_free_wp (.read hE) (h.unlocked ip) (fun _ => trivial) fun k₂ hk2 _ => ?_
  rw [Wp.bind_iff, getInode_wp]
  refine Wp.ite_iff.mpr ⟨fun _ => ?_, fun _ => ⟨i, fs, hk2, .inl ⟨hold, rfl⟩⟩⟩
  refine Wp.bind (hk2.iunlockput_wp (hk2.keeps h.orphans hk2.locked.2) fun k3 hk3 _ => ?_)
  rw [Wp.pure_iff]
  exact ⟨hold, hk3⟩

/-! ## Giving up -/

theorem giveUp_wp (h : Coherent c k fs (⟨ip, i, true⟩ ::ₘ R)) (hops : c.ops = 1)
    (hkeep : R.users ip ≠ 0 ∨ (fs.ino i).nlink ≠ 0)
    (hQ : ∀ k', Coherent { c with ops := 0 } k' fs R → k'.blk.log.Quiet → Q (-1) k') : Wp E (do
      iunlockput ip
      endWith (-1)) Q k := by
  refine Wp.bind (h.iunlockput_wp hkeep fun k₁ hk1 _ => ?_)
  unfold endWith
  refine Wp.bind (hk1.endOp_wp hops fun k₂ hk2 hq => ?_)
  rw [Wp.pure_iff]
  exact hQ k₂ hk2 hq

theorem bind_any {α β : Type} {f : FsM α} {g : α → FsM β} {Q : β → Sys → Prop}
    (hg : ∀ a k', Wp (fun _ => True) (g a) Q k') : Wp (fun _ => True) (f >>= g) Q k := by
  rw [Wp.bind_iff]
  unfold Wp
  cases f k with
  | ok x => exact hg x.1 x.2
  | error e => trivial

theorem openInstall_returns {f : FileId} {fd : Fin NOFILE}
   (hQ : ∀ k', Q fd.val k') : Wp (fun _ => True) (openInstall ip omode f fd) Q k := by
  refine bind_any fun i _ => bind_any fun x _ => bind_any fun _ _ => bind_any fun _ _ => ?_
  refine bind_any fun _ _ => bind_any fun _ k' => ?_
  rw [Wp.pure_iff]
  exact hQ k'

def Sys.Full (k : Sys) : Prop := k.freeFile = none ∨ k.freeFd = none

structure SameFiles (k k' : Sys) : Prop where
  proc : k'.proc = k.proc
  files : ∀ f, (k'.ftable f).ref = (k.ftable f).ref

theorem fileclose_fresh {f : FileId} {x : File} (href : x.ref = 1) (hkind : x.kind = .none)
    {Q : Unit → Sys → Prop} (hQ : Q () (k.setFile f { x with ref := 0, kind := .none })) :
    Wp E (fileclose f) Q (k.setFile f x) := by
  have hx : (k.setFile f x).ftable f = x := update_self ..
  have hset : (k.setFile f x).setFile f { x with ref := 0, kind := .none } =
      k.setFile f { x with ref := 0, kind := .none } := by
    unfold Sys.setFile
    simp only [update_idem]
  unfold fileclose
  rw [Wp.bind_iff, getFile_wp, hx, if_neg (by omega), if_neg (by omega), Wp.bind_iff, hkind]
  change Q () ((k.setFile f x).setFile f { x with ref := 0, kind := .none })
  rw [hset]
  exact hQ

theorem openAlloc_wp (h : Coherent c k fs (⟨ip, i, true⟩ ::ₘ R)) (hops : c.ops = 1)
    (hkeep : R.users ip ≠ 0 ∨ (fs.ino i).nlink ≠ 0)
    (hfiles : ∀ f, (k.ftable f).ref = 0 → (k.ftable f).kind = .none)
    (hfull : ∀ k' c', Coherent c' k' fs R → c'.sb = c.sb → k.Full → k'.blk.log.Quiet →
      SameFiles k k' → Q (-1) k') (hok : ∀ (fd : Fin NOFILE) k', Q fd.val k') :
    Wp (fun _ => True) (openAlloc ip omode) Q k := by
  unfold openAlloc filealloc
  rw [Wp.bind_iff, Wp.bind_iff, Wp.get_iff]
  cases hf : k.freeFile with
  | none =>
    rw [Wp.pure_iff]
    refine giveUp_wp h hops hkeep fun k' hk' hq => ?_
    refine hfull k' _ hk' rfl (.inl hf) hq ⟨?_, fun f => ?_⟩
    · exact hk'.proc_eq.trans h.proc_eq.symm
    · rw [hk'.ftable_eq, h.ftable_eq]
  | some f =>
    have hzero : (k.ftable f).ref = 0 := by simpa using List.find?_some hf
    simp only
    rw [Wp.bind_iff]
    change Wp (fun _ => True) (fdalloc f >>= _) Q (k.setFile f { k.ftable f with ref := 1 })
    unfold fdalloc
    rw [Wp.bind_iff, Wp.bind_iff, Wp.get_iff]
    have hfd : (k.setFile f { k.ftable f with ref := 1 }).freeFd = k.freeFd := rfl
    rw [hfd]
    cases hd : k.freeFd with
    | some fd => exact openInstall_returns fun k' => hok fd k'
    | none =>
      rw [Wp.pure_iff]
      simp only
      refine Wp.bind (fileclose_fresh (x := { k.ftable f with ref := 1 }) rfl (hfiles f hzero) ?_)
      have hk := h.setFile f { k.ftable f with ref := 0, kind := .none }
      refine giveUp_wp hk hops hkeep fun k' hk' hq => ?_
      refine hfull k' _ hk' rfl (.inr hd) hq ⟨?_, fun g => ?_⟩
      · exact hk'.proc_eq.trans h.proc_eq.symm
      rw [hk'.ftable_eq, h.ftable_eq]
      rcases eq_or_ne g f with rfl | hg
      · exact (congrArg File.ref (update_self ..)).trans
          (hzero.symm.trans (by rw [h.ftable_eq]))
      · exact congrArg File.ref (update_of_ne hg ..)

/-! ## A call that fails -/

/-- The file system, the descriptors, and the counts of files and inodes are what they
were. -/
structure Untouched (k k' : Sys) (fs : FS) : Prop where
  holds : k'.blk.Holds k.sb fs []
  files : SameFiles k k'
  inodes : ∀ ip, (k'.icache ip).ref = (k.icache ip).ref

/-- The path is fetched and names a new file, but there is no room for an open one. -/
def MakesInVain (k : Sys) (fs : FS) (path : Option Path) (omode : UInt32) : Prop :=
  ∃ p, path = some p ∧ Makes k fs p omode ∧ k.Full

/-- What a failed call leaves: the file system it found, or one with a new file. -/
def OpenFailed (k k' : Sys) (fs : FS) (makes : Prop) : Prop :=
  k'.blk.log.Quiet ∧ SameFiles k k' ∧ (∀ ip, (k'.icache ip).ref = (k.icache ip).ref) ∧
    ∃ fs', k'.blk.Holds k.sb fs' [] ∧ (¬makes ∧ fs' = fs ∨ makes ∧ k.Full ∧ ∃ i, Made k.sb fs fs' i)

theorem OpenFailed.intro (h : Walks k fs R)
    (hk : Coherent c k' fs' R) (hsb : c.sb = k.sb) (hq : k'.blk.log.Quiet) (hsame : SameFiles k k')
    (hcase : ¬makes ∧ fs' = fs ∨ makes ∧ k.Full ∧ ∃ i, Made k.sb fs fs' i) :
    OpenFailed k k' fs makes := by
  refine ⟨hq, hsame, fun ip => ?_, fs', ?_, hcase⟩
  · rw [hk.ref, h.coherent.ref]
  · rw [← hsb]
    exact hk.holds

theorem sysOpen_wp (h : Walks k fs R) (hq : k.blk.log.Quiet)
    (hfiles : ∀ f, (k.ftable f).ref = 0 → (k.ftable f).kind = .none) :
    Wp (fun _ => True) (sysOpen (some path) omode)
      (fun r k' => r = -1 → OpenFailed k k' fs (Makes k fs path omode)) k := by
  unfold sysOpen
  refine Wp.bind (h.coherent.beginOp_wp hq fun t ht => ?_)
  have henv : (k.withBlk t).env = { k.env with ops := 1 } := ht.env
  have hw : Walks (k.withBlk t) fs R :=
    ⟨by rw [henv]; exact ht, h.unlocked, h.graph, h.orphans, h.root, h.cwd⟩
  refine Wp.bind ((openInode_wp hw).post ?_)
  intro r k₁ hr
  rw [henv] at hr
  cases r with
  | none =>
    obtain ⟨hold, hk1⟩ := hr
    unfold endWith
    simp only
    refine Wp.bind (hk1.endOp_wp rfl fun k₂ hk2 hq2 => ?_)
    rw [Wp.pure_iff]
    intro _
    exact OpenFailed.intro h hk2 rfl hq2 ⟨hk2.proc_eq, fun f => by rw [hk2.ftable_eq]; rfl⟩
      (.inl ⟨hold, rfl⟩)
  | some ip =>
    obtain ⟨i, fs', hk1, hcase⟩ := hr
    have hft : k₁.ftable = k.ftable := hk1.ftable_eq
    have hproc : k₁.proc = k.proc := hk1.proc_eq
    have hcur : k₁.cur = k.cur := congrArg Env.cur hk1.env
    have hkeep : R.users ip ≠ 0 ∨ (fs'.ino i).nlink ≠ 0 := by
      rcases hcase with ⟨_, rfl⟩ | ⟨_, hmade⟩
      · exact hk1.keeps h.orphans hk1.locked.2
      refine .inr ?_
      rw [hmade.link]
      decide
    rw [Wp.bind_iff, getInode_wp, hk1.locked.1]
    refine Wp.ite_iff.mpr ⟨fun hdev => ?_, fun _ => ?_⟩
    · refine giveUp_wp hk1 rfl hkeep fun k₂ hk2 hq2 _ => ?_
      refine OpenFailed.intro h hk2 rfl hq2 ⟨hk2.proc_eq, fun f => by rw [hk2.ftable_eq]; rfl⟩ ?_
      refine hcase.imp_right fun hmade => ?_
      rw [hmade.2.file] at hdev
      exact absurd hdev.1 (by decide)
    refine openAlloc_wp hk1 rfl hkeep ?_ ?_ ?_
    · rw [hft]
      exact hfiles
    · intro k₂ c' hk2 hsb hfull hq2 hsame _
      have hfull' : k.Full := by
        unfold Sys.Full Sys.freeFile Sys.freeFd at hfull
        rwa [hft, hproc, hcur] at hfull
      refine OpenFailed.intro h hk2 hsb hq2 ⟨?_, fun f => ?_⟩ ?_
      · rw [hsame.proc, hproc]
      · rw [hsame.files, hft]
      · exact hcase.imp_right fun hmade => ⟨hmade.1, hfull', i, hmade.2⟩
    · intro fd _ hneg
      omega

/-- A failed `open` leaves everything as it was, unless it made a file before it found
that the table of files or of descriptors is full. -/
theorem open_failed_untouched_iff {path : Option Path} (h : Walks k fs R)
    (hq : k.blk.log.Quiet) (hfiles : ∀ f, (k.ftable f).ref = 0 → (k.ftable f).kind = .none)
    (hrun : sysOpen path omode k = .ok (-1, k')) :
    Untouched k k' fs ↔ ¬MakesInVain k fs path omode := by
  cases path with
  | none =>
    have hk : k' = k := by
      unfold sysOpen at hrun
      exact (Prod.mk.inj (Except.ok.inj hrun)).2.symm
    subst hk
    refine iff_of_true ⟨h.coherent.holds, ⟨rfl, fun _ => rfl⟩, fun _ => rfl⟩ ?_
    rintro ⟨p, hp, _⟩
    cases hp
  | some p =>
    obtain ⟨hq', hsame, href, fs', hholds, hcase⟩ := (sysOpen_wp h hq hfiles).of_ok hrun rfl
    rcases hcase with ⟨hold, rfl⟩ | ⟨hmakes, hfull, i, hmade⟩
    · refine iff_of_true ⟨hholds, hsame, href⟩ ?_
      rintro ⟨p', hp, hmakes, _⟩
      cases hp
      exact hold hmakes
    refine iff_of_false (fun hu => ?_) fun hv => hv ⟨p, rfl, hmakes, hfull⟩
    have hino := hu.holds.ino_eq hholds hq' hmade.lt
    have hfree := hmade.free
    rw [← hino, hmade.file] at hfree
    exact absurd hfree (by decide)

end

/-- A name that is not there, without `O_CREATE`. -/
theorem open_failed_untouched_small : ∃ k',
    sysOpen (some ⟨[110], by decide, by decide⟩) O_RDWR homeSys = .ok (-1, k') ∧
      Untouched homeSys k' smallFS := by
  have hrun : ((sysOpen (some ⟨[110], by decide, by decide⟩) O_RDWR homeSys).toOption.map
      fun x => x.1) = some (-1) := by
    decide +kernel
  obtain ⟨r, k', hok, hr⟩ := Prog.exists_ok hrun
  simp only at hr
  subst hr
  refine ⟨k', hok, (open_failed_untouched_iff homeSys_walks ⟨rfl, rfl, rfl⟩ (fun _ _ => rfl)
    hok).mpr ?_⟩
  rintro ⟨p, hp, hmakes, _⟩
  cases hp
  exact hmakes.1 (by decide)

/-- The small system with a fourth inode, for a process that has the root directory open
under all its descriptors. -/
def crowdedSys : Sys :=
  { homeSys with
    sb := { smallSb with ninodes := 4 }
    icache := update homeSys.icache smallIp { homeSys.icache smallIp with ref := 2 }
    ftable := update homeSys.ftable openFile
      { kind := .inode smallIp, ref := NOFILE, readable := true, writable := false, off := 0 }
    proc := update homeSys.proc homeSys.cur
      { cwd := some smallIp, ofile := fun _ => some openFile } }

/-- The call fails for lack of a descriptor, but the new file is on the disk. -/
theorem open_makes_in_vain : ∃ k',
    sysOpen (some ⟨[110], by decide, by decide⟩) (O_CREATE ||| O_RDWR) crowdedSys = .ok (-1, k') ∧
      (Dinode.decode (crowdedSys.blk.disk 32) (Dinode.offset 3)).type = 0 ∧
      (Dinode.decode (k'.blk.disk 32) (Dinode.offset 3)).type = T_FILE := by
  have hrun : ((sysOpen (some ⟨[110], by decide, by decide⟩) (O_CREATE ||| O_RDWR)
      crowdedSys).toOption.map fun x => (x.1,
        (Dinode.decode (x.2.blk.disk 32) (Dinode.offset 3)).type)) = some (-1, T_FILE) := by
    decide +kernel
  obtain ⟨r, k', hok, hx⟩ := Prog.exists_ok hrun
  obtain ⟨rfl, htype⟩ := Prod.mk.inj hx
  exact ⟨k', hok, by decide +kernel, htype⟩

end Xv6.Kernel
