import Xv6.Proofs.Pipes
/-!
# Wakeups on a pipe

A process on its way to sleep, or asleep, is either right to be there, or the
holder of `pi->lock` is about to wake it up.  `pipewrite` breaks this when it
finds the pipe full and gives up, because it does not announce what it appended
since its last `wakeup`.
-/

namespace Xv6.Kernel

open Xv6.Lib Function

variable {ch : PipeChan} {pc : PipePc} {x : Sleeper}

def Pipe.Blocks (pi : Pipe) : PipeChan → Prop
  | .nread => pi.isEmpty = true ∧ pi.writeopen = true
  | .nwrite => pi.isFull = true ∧ pi.readopen = true

theorem Pipe.Blocks.closed {pi : Pipe} {w : Bool} (h : pi.Blocks ch)
    (hne : Pipes.closeChan w ≠ ch) : (pi.closed w).Blocks ch := by
  cases w with
  | true =>
    cases ch with
    | nread => exact absurd rfl hne
    | nwrite => exact h
  | false =>
    cases ch with
    | nread => exact h
    | nwrite => exact absurd rfl hne

/-- The bytes appended since the last `wakeup(&pi->nread)`. -/
def PipeCall.unseen : PipeCall → Nat
  | .write _ _ _ k => k
  | .read _ _ _ | .close _ => 0

structure WriteLoop where
  n : Int
  i : Nat
  unseen : Nat

namespace PipePc

variable {p : Nat}

def writeLoop : PipePc → Option WriteLoop
  | .head (.write m _ i unseen) => some ⟨m, i, unseen⟩
  | _ => none

def toBed : PipePc → Option PipeChan
  | .wake _ _ _ (.sleep ch) | .sleep ch _ | .letGo ch _ | .doze ch _ => some ch
  | _ => none

def Dozes (pc : PipePc) (x : Sleeper) (ch : PipeChan) : Prop :=
  pc.toBed = some ch ∨ x.state = .sleeping ∧ pc.bed = some ch

theorem not_dozes (hto : pc.toBed = none) (hbed : pc.bed = none) : ¬pc.Dozes x ch := by
  simp [Dozes, hto, hbed]

/-- Will call `wakeup(ch)`, or is in it and has not looked at process `p`. -/
def Owes (ch : PipeChan) (p : Nat) : PipePc → Prop
  | .head c => ch = .nread ∧ c.unseen ≠ 0
  | .copy _ _ i => ch = .nwrite ∧ i ≠ 0
  | .wake ch' q _ _ => ch' = ch ∧ q ≤ p
  | _ => False

theorem Owes.holds (h : pc.Owes ch p) : pc.holds = true := by
  cases pc <;> first | rfl | exact h.elim

theorem holds_or_holdsSelf_of_toBed (h : pc.toBed = some ch) :
    pc.holds = true ∨ pc.holdsSelf = true := by
  cases pc <;> first | exact .inl rfl | exact .inr rfl | cases h

end PipePc

theorem Sleeper.wake_state (h : (x.wake ch).state = .sleeping) :
    x.state = .sleeping ∧ x.chan ≠ some ch := by
  unfold Sleeper.wake at h
  split at h
  · cases h
  · rename_i hx
    exact ⟨h, fun hc => hx ⟨h, hc⟩⟩

namespace Pipes

variable {n : Nat} {s t : Pipes n} {a : PipeAct n} {p q r : Fin n}

/-- Whoever sleeps has reason to, or will be woken up by the holder of the
lock. -/
structure Watched (s : Pipes n) : Prop where
  turn : ∀ p ch q c ch', s.pc p = .wake ch q c (.sleep ch') → ch ≠ ch'
  doze : ∀ p ch, (s.pc p).Dozes (s.proc p) ch →
    s.pipe.Blocks ch ∨ ∃ q, (s.pc q).Owes ch p

/-- `pipewrite` gives up at a full pipe only when the readers know of all it
has appended. -/
def GivesUpAnnounced (s : Pipes n) : PipeAct n → Prop
  | .run p => ∀ w ∈ (s.pc p).writeLoop, (w.i : Int) < w.n → s.pipe.isFull = true →
      s.pipe.readopen = false ∨ (s.proc p).killed = true → w.unseen = 0
  | .call _ _ | .kill _ => True

instance (s : Pipes n) : ∀ a, Decidable (GivesUpAnnounced s a)
  | .run p => inferInstanceAs (Decidable (∀ w ∈ (s.pc p).writeLoop, (w.i : Int) < w.n →
      s.pipe.isFull = true → s.pipe.readopen = false ∨ (s.proc p).killed = true → w.unseen = 0))
  | .call _ _ | .kill _ => .isTrue trivial

namespace Watched

theorem init (page : Bytes PIPESIZE) : Watched (Pipes.init page : Pipes n) where
  turn := by simp [Pipes.init]
  doze := by simp [Pipes.init, PipePc.Dozes, PipePc.toBed, PipePc.bed]

section

variable (h : Watched s)
include h

section

variable (hpc : t.pc = update s.pc r pc)
include hpc

theorem move (hturn : ∀ ch q c ch', pc = .wake ch q c (.sleep ch') → ch ≠ ch')
    (hother : ∀ q, q ≠ r → (t.proc q).state = .sleeping → (s.proc q).state = .sleeping)
    (hself : ∀ ch, pc.Dozes (t.proc r) ch → (s.pc r).Dozes (s.proc r) ch ∨ s.pipe.Blocks ch)
    (hwake : ∀ p ch, (t.pc p).Dozes (t.proc p) ch → s.pipe.Blocks ch ∨ (s.pc r).Owes ch p →
      t.pipe.Blocks ch ∨ pc.Owes ch p) : Watched t where
  turn := by
    intro q ch j c ch' hq
    rw [hpc] at hq
    rcases eq_or_ne q r with rfl | hqr
    · rw [update_self] at hq
      exact hturn ch j c ch' hq
    · rw [update_of_ne hqr] at hq
      exact h.turn q ch j c ch' hq
  doze := by
    intro p ch hp
    have hr : t.pc r = pc := by rw [hpc, update_self]
    have hold : s.pipe.Blocks ch ∨ ∃ q, (s.pc q).Owes ch p := by
      rcases eq_or_ne p r with rfl | hpr
      · rcases hself ch (by rw [← hr]; exact hp) with hd | hb
        · exact h.doze p ch hd
        · exact .inl hb
      · have hpc' : t.pc p = s.pc p := by rw [hpc, update_of_ne hpr]
        refine h.doze p ch ?_
        rw [hpc'] at hp
        exact hp.imp_right fun hs => ⟨hother p hpr hs.1, hs.2⟩
    have hnew : s.pipe.Blocks ch ∨ (s.pc r).Owes ch p →
        t.pipe.Blocks ch ∨ ∃ q, (t.pc q).Owes ch p :=
      fun hb => (hwake p ch hp hb).imp_right fun ho => ⟨r, by rw [hr]; exact ho⟩
    rcases hold with hb | ⟨q, ho⟩
    · exact hnew (.inl hb)
    by_cases hqr : q = r
    · exact hnew (.inr (hqr ▸ ho))
    · exact .inr ⟨q, by rw [hpc, update_of_ne hqr]; exact ho⟩

theorem quiet (hpipe : t.pipe = s.pipe)
    (hturn : ∀ ch q c ch', pc = .wake ch q c (.sleep ch') → ch ≠ ch')
    (hother : ∀ q, q ≠ r → (t.proc q).state = .sleeping → (s.proc q).state = .sleeping)
    (hself : ∀ ch, pc.Dozes (t.proc r) ch → (s.pc r).Dozes (s.proc r) ch ∨ s.pipe.Blocks ch)
    (howes : ∀ ch (p : Fin n), (s.pc r).Owes ch p → pc.Owes ch p) : Watched t := by
  apply h.move hpc hturn hother hself
  intro p ch _ hb
  rw [hpipe]
  exact hb.imp_right (howes ch p)

theorem go (hpipe : t.pipe = s.pipe)
    (hproc : t.proc = s.proc) (hto : pc.toBed = none) (hbed : pc.bed = none)
    (howes : ∀ ch (p : Fin n), (s.pc r).Owes ch p → pc.Owes ch p) : Watched t := by
  refine h.quiet hpc hpipe ?_ (fun q _ hq => by rwa [hproc] at hq) ?_ howes
  · rintro ch q c ch' rfl
    cases hto
  · intro ch hd
    exact absurd hd (PipePc.not_dozes hto hbed)

theorem turnIn (hpipe : t.pipe = s.pipe) (hproc : t.proc = update s.proc r x)
    (hturn : ∀ ch q c ch', pc = .wake ch q c (.sleep ch') → ch ≠ ch')
    (hself : ∀ ch, pc.Dozes x ch → (s.pc r).Dozes (s.proc r) ch)
    (howes : ∀ ch (p : Fin n), (s.pc r).Owes ch p → pc.Owes ch p) : Watched t := by
  refine h.quiet hpc hpipe hturn ?_ ?_ howes
  · intro q hq hs
    rwa [hproc, update_of_ne hq] at hs
  intro ch hd
  rw [hproc, update_self] at hd
  exact .inl (hself ch hd)

theorem change (hproc : t.proc = s.proc) (hto : pc.toBed = none) (hbed : pc.bed = none)
    (hwake : ∀ (p : Fin n) ch, s.pipe.Blocks ch ∨ (s.pc r).Owes ch p →
      t.pipe.Blocks ch ∨ pc.Owes ch p) : Watched t := by
  refine h.move hpc ?_ (fun q _ hq => by rwa [hproc] at hq) ?_ fun p ch _ hb => hwake p ch hb
  · rintro ch q c ch' rfl
    cases hto
  · intro ch hd
    exact absurd hd (PipePc.not_dozes hto hbed)

end

theorem wakeOne (hsync : Sync s) {c : PipeCall} {k : PipeNext}
    (hr : s.pc r = .wake ch q.val c k) (hl : (s.proc q).locked = false) :
    Watched ((s.setProc q ((s.proc q).wake ch)).setPc r (.wake ch (q.val + 1) c k)) := by
  have hstate : ∀ p, (((s.setProc q ((s.proc q).wake ch)).setPc r
      (.wake ch (q.val + 1) c k)).proc p).state = .sleeping →
      (s.proc p).state = .sleeping ∧ (p = q → (s.proc p).chan ≠ some ch) := by
    intro p hp
    rcases eq_or_ne p q with rfl | hpq
    · simp only [setPc_proc, setProc_proc, update_self] at hp
      obtain ⟨hs, hc⟩ := Sleeper.wake_state hp
      exact ⟨hs, fun _ => hc⟩
    · simp only [setPc_proc, setProc_proc, update_of_ne hpq] at hp
      exact ⟨hp, fun he => absurd he hpq⟩
  apply h.move rfl
  · intro ch1 j c' ch2 he
    cases he
    exact h.turn r _ _ _ _ hr
  · exact fun p _ hp => (hstate p hp).1
  · intro ch' hd
    rw [hr]
    refine .inl (hd.imp (fun ht => ?_) fun hs => ?_)
    · cases k <;> exact ht
    · cases hs.2
  intro p ch' hd hb
  rcases hb with hb | ho
  · exact .inl hb
  rw [hr] at ho
  obtain ⟨rfl, hle⟩ := ho
  refine .inr ⟨rfl, ?_⟩
  rcases Nat.lt_or_eq_of_le hle with hlt | heq
  · exact hlt
  have hpq : p = q := Fin.ext heq.symm
  subst hpq
  -- the process it looks at no longer sleeps on `ch`
  exfalso
  rcases hd with ht | hs
  · rcases eq_or_ne p r with rfl | hpr
    · simp only [setPc_pc, update_self] at ht
      cases k with
      | sleep ch' =>
        cases ht
        exact h.turn p _ _ _ _ hr rfl
      | leave => cases ht
    · simp only [setPc_pc, update_of_ne hpr, setProc_pc] at ht
      rcases PipePc.holds_or_holdsSelf_of_toBed ht with hh | hh
      · have hlp := (hsync.lock p).mpr hh
        rw [(hsync.lock r).mpr (by rw [hr]; rfl)] at hlp
        exact hpr (Option.some.inj hlp).symm
      · rw [← hsync.self p, hl] at hh
        cases hh
  · obtain ⟨hs, hbed⟩ := hs
    have hpr : p ≠ r := by
      rintro rfl
      simp [PipePc.bed] at hbed
    simp only [setPc_pc, update_of_ne hpr, setProc_pc] at hbed
    exact (hstate p hs).2 rfl (hsync.chan p ch hbed)

theorem kill (q : Fin n) : Watched (s.setProc q (s.proc q).kill) where
  turn := h.turn
  doze := by
    intro p ch hd
    refine h.doze p ch (hd.imp_right fun hs => ⟨?_, hs.2⟩)
    rcases eq_or_ne p q with rfl | hpq
    · simp only [setProc_proc, update_self, Sleeper.kill] at hs
      split at hs
      · cases hs.1
      · exact hs.1
    · rw [setProc_proc, update_of_ne hpq] at hs
      exact hs.1

theorem step (hsync : Sync s) (hC : GivesUpAnnounced s a) (hst : Steps s a t) : Watched t := by
  cases hst with
  | call hp => exact h.go rfl rfl rfl rfl rfl (by simp [hp, PipePc.Owes])
  | @enter p c hp hl =>
    have hpc : (((s.withLock (some p)).register p c).setPc p (.head c)).pc =
        update s.pc p (.head c) := by simp
    exact h.go hpc (by simp) (by simp) rfl rfl (by simp [hp, PipePc.Owes])
  | writeLeave hp hi hfull hk =>
    have hu := hC _ (by rw [hp]; rfl) hi hfull hk
    simp only at hu
    exact h.go rfl rfl rfl rfl rfl (by simp [hp, PipePc.Owes, PipeCall.unseen, hu])
  | writeFull hp hi hfull hopen =>
    refine h.quiet rfl rfl ?_ (fun _ _ hs => hs) ?_ ?_
    · rintro _ _ _ _ ⟨⟩
      decide
    · rintro ch (hto | hs)
      · cases hto
        exact .inr ⟨hfull, hopen⟩
      · cases hs.2
    · rw [hp]
      rintro ch p ⟨rfl, _⟩
      exact ⟨rfl, Nat.zero_le _⟩
  | writeEnd hp =>
    refine h.go rfl rfl rfl rfl rfl ?_
    rw [hp]
    rintro ch p ⟨rfl, _⟩
    exact ⟨rfl, Nat.zero_le _⟩
  | append hp hi hfull =>
    refine h.change rfl rfl rfl rfl ?_
    rintro p (_ | _) hb
    · exact .inr ⟨rfl, Nat.succ_ne_zero _⟩
    · rw [hp] at hb
      simp [Pipe.Blocks, hfull, PipePc.Owes] at hb
  | readLeave hp =>
    exact h.go rfl rfl rfl rfl rfl (by simp [hp, PipePc.Owes, PipeCall.unseen])
  | readSleep hp hempty hopen =>
    refine h.quiet rfl rfl nofun (fun _ _ hs => hs) ?_ (by simp [hp, PipePc.Owes, PipeCall.unseen])
    rintro ch (hto | hs)
    · cases hto
      exact .inr ⟨hempty, hopen⟩
    · cases hs.2
  | readGo hp =>
    exact h.go rfl rfl rfl rfl rfl (by simp [hp, PipePc.Owes, PipeCall.unseen])
  | remove hp hi hempty =>
    refine h.change rfl rfl rfl rfl ?_
    rintro p (_ | _) hb
    · rw [hp] at hb
      simp [Pipe.Blocks, hempty, PipePc.Owes] at hb
    · exact .inr ⟨rfl, Nat.succ_ne_zero _⟩
  | removeFault hp hi hempty =>
    refine h.change rfl rfl rfl rfl ?_
    rintro p (_ | _) hb
    · rw [hp] at hb
      simp [Pipe.Blocks, hempty, PipePc.Owes] at hb
    · exact .inr ⟨rfl, Nat.zero_le _⟩
  | readEnd hp =>
    refine h.go rfl rfl rfl rfl rfl ?_
    rw [hp]
    rintro ch p ⟨rfl, _⟩
    exact ⟨rfl, Nat.zero_le _⟩
  | @close p w hp =>
    refine h.change rfl rfl rfl rfl ?_
    intro p ch hb
    rw [hp] at hb
    by_cases hch : closeChan w = ch
    · exact .inr ⟨hch, Nat.zero_le _⟩
    refine .inl ?_
    rcases hb with hb | ho
    · exact hb.closed hch
    · exact absurd rfl ho.2
  | wakeOne hp hl => exact h.wakeOne hsync hp hl
  | wakeSleep hp hq =>
    refine h.quiet rfl rfl nofun (fun _ _ hs => hs) ?_ ?_
    · rw [hp]
      exact fun ch hd => .inl hd
    rw [hp]
    rintro ch p ⟨_, hle⟩
    exact absurd p.isLt (by omega)
  | wakeLeave hp hq =>
    refine h.go rfl rfl rfl rfl rfl ?_
    rw [hp]
    rintro ch p ⟨_, hle⟩
    exact absurd p.isLt (by omega)
  | sleep hp =>
    exact h.turnIn rfl rfl rfl nofun (fun ch hd => by rw [hp]; exact hd) (by simp [hp, PipePc.Owes])
  | letGo hp =>
    refine h.quiet rfl rfl nofun (fun _ _ hs => hs) ?_ (by simp [hp, PipePc.Owes])
    rw [hp]
    exact fun ch hd => .inl hd
  | doze hp =>
    refine h.turnIn rfl rfl rfl nofun ?_ (by simp [hp, PipePc.Owes])
    rw [hp]
    rintro ch (hto | hs)
    · cases hto
    · exact .inl hs.2
  | sched hp =>
    exact h.turnIn rfl rfl rfl nofun (fun ch hd => by rw [hp]; exact hd) (by simp [hp, PipePc.Owes])
  | resume hp =>
    exact h.turnIn rfl rfl rfl nofun (fun ch hd => (PipePc.not_dozes rfl rfl hd).elim)
      (by simp [hp, PipePc.Owes])
  | woken hp =>
    exact h.turnIn rfl rfl rfl nofun (fun ch hd => (PipePc.not_dozes rfl rfl hd).elim)
      (by simp [hp, PipePc.Owes])
  | again hp => exact h.go rfl rfl rfl rfl rfl (by simp [hp, PipePc.Owes])
  | @leave p c r hp =>
    exact h.go (leaveStep_pc s p c) (by simp) (by simp) rfl rfl (by simp [hp, PipePc.Owes])
  | kill => exact h.kill _

end

end Watched

/-- As long as `pipewrite` gives up only with nothing to announce, no wakeup is
lost. -/
theorem pipe_no_lost_wakeup {page : Bytes PIPESIZE}
    (h : Reaches step GivesUpAnnounced (init page) s)
    (hfree : s.lock = none) (p : Fin n) (hs : (s.proc p).state = .sleeping) :
    ((s.proc p).chan = some .nread → s.pipe.isEmpty = true ∧ s.pipe.writeopen = true) ∧
    ((s.proc p).chan = some .nwrite → s.pipe.isFull = true ∧ s.pipe.readopen = true) := by
  have hinv : Sync s ∧ Watched s := by
    apply h.invariant ⟨.init page, .init page⟩
    rintro u v a ⟨hsync, hw⟩ hC hst
    have hs := steps_of_step hst
    exact ⟨hsync.step hs, hw.step hsync hC hs⟩
  obtain ⟨hsync, hw⟩ := hinv
  have hblocks : ∀ ch, (s.proc p).chan = some ch → s.pipe.Blocks ch := by
    intro ch hch
    obtain ⟨ch', hbed⟩ := Option.ne_none_iff_exists'.mp (hsync.state p hs)
    rw [hsync.chan p ch' hbed] at hch
    cases hch
    rcases hw.doze p ch (.inr ⟨hs, hbed⟩) with hb | ⟨q, ho⟩
    · exact hb
    have hq := (hsync.lock q).mpr ho.holds
    rw [hfree] at hq
    cases hq
  exact ⟨hblocks .nread, hblocks .nwrite⟩

def readerSleeps (r : Fin n) : List (PipeAct n) :=
  [.call r (.read 1 (fun _ => true) 0)] ++ List.replicate 6 (.run r)

theorem pipe_no_lost_wakeup_readerSleeps :
    ∃ s : Pipes 2, Reaches step GivesUpAnnounced (init Bytes.zero) s ∧ s.lock = none ∧
      (s.proc 1).state = .sleeping ∧ (s.proc 1).chan = some .nread ∧ s.pipe.isEmpty = true := by
  have hrun : (exec step (GivesUpAnnounced · ·) (init Bytes.zero : Pipes 2) (readerSleeps 1)).map
      (fun s => (s.lock, (s.proc 1).state, (s.proc 1).chan)) =
      some (none, .sleeping, some .nread) := by decide +kernel
  obtain ⟨s, hs, heq⟩ := Option.map_eq_some_iff.mp hrun
  simp only [Prod.mk.injEq] at heq
  obtain ⟨hfree, hstate, hchan⟩ := heq
  have hreach : Reaches step GivesUpAnnounced (init Bytes.zero) s :=
    .exec .refl (fun a _ v hok => of_decide_eq_true hok) hs
  exact ⟨s, hreach, hfree, hstate, hchan, ((pipe_no_lost_wakeup hreach hfree 1 hstate).1 hchan).1⟩

def writerKilled (r w : Fin n) : List (PipeAct n) :=
  readerSleeps r ++ [.call w (.write 513 (fun _ => some 7) 0 0)] ++ List.replicate 513 (.run w) ++
    [.kill w] ++ List.replicate 2 (.run w)

/-- The reader of a full pipe stays asleep. -/
theorem pipe_lost_wakeup :
    ∃ s : Pipes 2, Reaches step (fun _ _ => True) (init Bytes.zero) s ∧ s.lock = none ∧
      (s.proc 1).state = .sleeping ∧ (s.proc 1).chan = some .nread ∧ s.pipe.isFull = true ∧
      ¬(s.pipe.isEmpty = true ∧ s.pipe.writeopen = true) := by
  have hrun : (exec step (fun _ _ => true) (init Bytes.zero : Pipes 2) (writerKilled 1 0)).map
      (fun s => (s.lock, (s.proc 1).state, (s.proc 1).chan, s.pipe.isFull, s.pipe.isEmpty)) =
      some (none, .sleeping, some .nread, true, false) := by decide +kernel
  obtain ⟨s, hs, heq⟩ := Option.map_eq_some_iff.mp hrun
  simp only [Prod.mk.injEq] at heq
  obtain ⟨hfree, hstate, hchan, hfull, hempty⟩ := heq
  exact ⟨s, .exec .refl (fun _ _ _ _ => trivial) hs, hfree, hstate, hchan, hfull,
    by simp [hempty]⟩

end Pipes

end Xv6.Kernel
