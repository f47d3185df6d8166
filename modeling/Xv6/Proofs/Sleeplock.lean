import Xv6.Proofs.Sleep
/-!
# Sleep-locks

The users of a sleep-lock: at most one of them has it, and whoever sleeps on it
sleeps because it is taken.
-/

namespace Xv6.Kernel

open Xv6.Lib Function

variable {n : Nat} {p : Fin n}

inductive SleepKind where
  | run
  | sleep
  | wake
  | kill
  deriving DecidableEq

namespace SleepPc

variable {Λ : Type}

def kind : SleepPc n Λ → SleepKind
  | .run => .run
  | .lockSelf _ _ | .letGo _ _ | .setChan _ _ | .setState _ _ | .sched _ _ | .away _ _
  | .clearChan _ | .unlockSelf _ | .again _ => .sleep
  | .wake _ _ | .wakeLook _ _ | .wakeNext _ _ => .wake
  | .kill _ _ | .killLook _ _ | .killNext _ _ _ => .kill

def apart : SleepPc n Λ → Bool
  | .setChan _ _ | .setState _ _ | .sched _ _ | .away _ _ | .clearChan _ | .unlockSelf _
  | .again _ => true
  | _ => false

end SleepPc

namespace LockPc

def inside : LockPc → Bool
  | .test | .setLocked | .setPid | .done | .clearLocked | .clearPid | .wakeup | .leave => true
  | .idle | .enter | .holding | .back => false

/-- From `lk->locked = 1` to `lk->locked = 0`. -/
def has : LockPc → Bool
  | .setPid | .done | .holding | .back | .clearLocked => true
  | .idle | .enter | .test | .setLocked | .clearPid | .wakeup | .leave => false

def Announces {n : Nat} (pc : LockPc) (inner : SleepPc n Unit) : Prop :=
  pc = .clearPid ∨ pc = .wakeup ∨ pc = .leave ∧ inner ≠ .run

theorem Announces.inside {pc : LockPc} {inner : SleepPc n Unit}
    (h : pc.Announces inner) : pc.inside = true ∧ pc ≠ .test := by
  rcases h with rfl | rfl | ⟨rfl, _⟩ <;> exact ⟨rfl, nofun⟩

def Calls {n : Nat} (pc : LockPc) (inner : SleepPc n Unit) : Prop :=
  inner = .run ∨ pc = .test ∧ inner.kind = .sleep ∨ pc = .leave ∧ inner.kind = .wake ∨
    (pc = .idle ∨ pc = .holding) ∧ inner.kind = .kill

end LockPc

namespace Sleepers

variable {s t : Sleepers n Unit}

theorem sleep_step (hkind : (s.pc p).kind = .sleep) (hstep : s.runStep p (s.pc p) = some t)
    (hown : s.owner () = some p ↔ (s.pc p).apart = false) :
    (t.pc p = .run ∨ (t.pc p).kind = .sleep) ∧
      (∀ a l, (t.pc p).waits = some (a, l) → (s.pc p).waits = some (a, l)) ∧
      (t.pc p).passed = none ∧ (t.owner () = some p ↔ (t.pc p).apart = false) ∧
      ((s.pc p).dozes = true → (t.pc p).dozes = true ∧ t.proc p = s.proc p) := by
  cases hpc : s.pc p <;> rw [hpc] at hkind hstep hown <;> simp only [runStep, reduceCtorEq] at hstep
  case lockSelf | again =>
    obtain ⟨_, hstep⟩ := Option.ite_none_right_eq_some.mp hstep
    cases hstep
    simp_all [SleepPc.kind, SleepPc.apart]
  case letGo | setChan | setState | sched | clearChan | unlockSelf =>
    cases hstep
    simp_all [SleepPc.kind, SleepPc.apart]
  all_goals cases hkind

theorem wake_step (hkind : (s.pc p).kind = .wake) (hstep : s.runStep p (s.pc p) = some t) :
    (t.pc p).waits = none ∧
    (∀ a k, (t.pc p).passed = some (a, k) → ∃ j, (s.pc p).passed = some (a, j)) ∧
      t.owner = s.owner ∧ (t.pc p).apart = false ∧
      ((t.pc p).kind = .wake ∨ t.pc p = .run ∧ ∃ a k, (s.pc p).passed = some (a, k) ∧ n ≤ k) := by
  cases hpc : s.pc p <;> rw [hpc] at hkind hstep <;> simp only [runStep, reduceCtorEq] at hstep
  case wake a k =>
    unfold scan at hstep
    split at hstep
    · obtain ⟨_, hstep⟩ := Option.ite_none_right_eq_some.mp hstep
      cases hstep
      simp [SleepPc.kind, SleepPc.apart]
    · cases hstep
      simp_all [SleepPc.kind, SleepPc.apart]
  case wakeLook | wakeNext =>
    cases hstep
    simp [SleepPc.kind, SleepPc.apart]
  all_goals cases hkind

theorem kill_step (hkind : (s.pc p).kind = .kill) (hstep : s.runStep p (s.pc p) = some t) :
    (t.pc p).waits = none ∧ (t.pc p).passed = none ∧ t.owner = s.owner ∧
      (t.pc p = .run ∨ (t.pc p).kind = .kill) := by
  cases hpc : s.pc p <;> rw [hpc] at hkind hstep <;> simp only [runStep, reduceCtorEq] at hstep
  case kill pid k =>
    unfold scan at hstep
    split at hstep
    · obtain ⟨_, hstep⟩ := Option.ite_none_right_eq_some.mp hstep
      cases hstep
      simp [SleepPc.kind]
    · cases hstep
      simp
  case killLook pid q =>
    split at hstep
    all_goals
      cases hstep
      simp [SleepPc.kind]
  case killNext pid q found =>
    cases hstep
    cases found <;> simp [SleepPc.kind]
  all_goals cases hkind

end Sleepers

namespace Sleeplocks

variable {s t : Sleeplocks n} {b : Sleepers n Unit} {q : Fin n} {pc : LockPc} {m : Int}

structure Inv (s : Sleeplocks n) : Prop where
  base : s.base.Inv
  calls : ∀ p, (s.pc p).Calls (s.base.pc p)
  waits : ∀ p a l, (s.base.pc p).waits = some (a, l) → a = 0
  passed : ∀ p a k, (s.base.pc p).passed = some (a, k) → a = 0
  owner : ∀ p, s.base.owner () = some p ↔ (s.pc p).inside = true ∧ (s.base.pc p).apart = false
  has : ∀ p q, (s.pc p).has = true → (s.pc q).has = true → p = q
  locked : s.locked = true ↔ ∃ p, (s.pc p).has = true
  free : ∀ p, s.pc p = .setLocked → s.locked = false
  wait : ∀ p, s.base.Waiting p 0 () → s.locked = true ∨
    ∃ q, s.base.owner () = some q ∧ (s.pc q).Announces (s.base.pc q)

theorem init_inv (pid : Fin n → Int) : Inv (init pid) where
  base := Sleepers.init_inv pid
  calls := fun _ => .inl rfl
  waits := fun _ _ _ h => by cases h
  passed := fun _ _ _ h => by cases h
  owner := fun p => ⟨fun h => (nomatch h), fun h => by cases h.1⟩
  has := fun p q h => by cases h
  locked := ⟨fun h => (nomatch h), fun ⟨p, h⟩ => by cases h⟩
  free := fun p h => by cases h
  wait := fun p h => by cases h.pc

theorem Inv.calm (h : Inv s) (hm : s.base.Moves b p) (hhas : pc.has = (s.pc p).has)
    (hset : pc = .setLocked → s.locked = false) (hcalls : pc.Calls (b.pc p))
    (hwaits : ∀ a l, (b.pc p).waits = some (a, l) → a = 0)
    (hpassed : ∀ a k, (b.pc p).passed = some (a, k) → a = 0)
    (howner : b.owner () = some p ↔ pc.inside = true ∧ (b.pc p).apart = false)
    (hback : b.Waiting p 0 () → s.base.Waiting p 0 () ∨ s.locked = true)
    (hann : s.base.owner () = some p → (s.pc p).Announces (s.base.pc p) →
      b.owner () = some p ∧ pc.Announces (b.pc p) ∨ ∀ r, ¬b.Waiting r 0 ()) :
    Inv ⟨b, s.locked, m, update s.pc p pc⟩ := by
  have hpc : ∀ q, q ≠ p → update s.pc p pc q = s.pc q := fun q hq =>
    update_of_ne hq ..
  have hself : update s.pc p pc p = pc := update_self ..
  have hsame : ∀ q, (update s.pc p pc q).has = (s.pc q).has := by
    intro q
    by_cases hq : q = p
    · rw [hq, hself, hhas]
    · rw [hpc q hq]
  refine ⟨hm.inv, fun q => ?_, fun q => ?_, fun q => ?_, fun q => ?_, fun q r => ?_, ?_,
    fun q => ?_, fun q hw => ?_⟩
  · rcases eq_or_ne q p with rfl | hq
    · simpa only [hself] using hcalls
    · simpa only [hpc q hq, hm.frame.pc q hq] using h.calls q
  · rcases eq_or_ne q p with rfl | hq
    · exact hwaits
    · simpa only [hm.frame.pc q hq] using h.waits q
  · rcases eq_or_ne q p with rfl | hq
    · exact hpassed
    · simpa only [hm.frame.pc q hq] using h.passed q
  · rcases eq_or_ne q p with rfl | hq
    · simpa only [hself] using howner
    · simpa only [hpc q hq, hm.frame.pc q hq, hm.frame.owner q () hq] using h.owner q
  · simpa only [hsame] using h.has q r
  · simpa only [hsame] using h.locked
  · rcases eq_or_ne q p with rfl | hq
    · simpa only [hself] using hset
    · simpa only [hpc q hq] using h.free q
  have hold : s.base.Waiting q 0 () ∨ s.locked = true := by
    rcases eq_or_ne q p with rfl | hq
    · exact hback hw
    · exact .inl (hw.frame hm.frame hq)
  rcases hold with hold | hlocked
  · rcases h.wait q hold with hlocked | ⟨r, hr, hannr⟩
    · exact .inl hlocked
    rcases eq_or_ne r p with rfl | hrp
    · rcases hann hr hannr with ⟨hown, hann'⟩ | hnone
      · refine .inr ⟨r, hown, ?_⟩
        simpa only [hself] using hann'
      · exact absurd hw (hnone q)
    · refine .inr ⟨r, (hm.frame.owner r () hrp).mpr hr, ?_⟩
      simpa only [hpc r hrp, hm.frame.pc r hrp] using hannr
  · exact .inl hlocked

theorem Inv.inner (h : Inv s) (hrun : s.base.pc p ≠ .run)
    (hstep : s.base.runStep p (s.base.pc p) = some b) :
    Inv ⟨b, s.locked, s.pid, update s.pc p (s.pc p)⟩ := by
  have hm := Sleepers.runStep_moves h.base hstep
  have hset : s.pc p = .setLocked → s.locked = false := h.free p
  rcases h.calls p with hout | ⟨hpc, hkind⟩ | ⟨hpc, hkind⟩ | ⟨hpc, hkind⟩
  · exact absurd hout hrun
  · -- in `sleep`
    have hown : s.base.owner () = some p ↔ (s.base.pc p).apart = false := by
      rw [h.owner p, hpc]
      exact ⟨fun h => h.2, fun h => ⟨rfl, h⟩⟩
    obtain ⟨hcalls, hwaits, hpassed, hown', hdozes⟩ := Sleepers.sleep_step hkind hstep hown
    refine h.calm hm rfl hset ?_ ?_ ?_ ?_ ?_ ?_
    · rcases hcalls with hcalls | hcalls
      · exact .inl hcalls
      · exact .inr (.inl ⟨hpc, hcalls⟩)
    · exact fun a l ha => h.waits p a l (hwaits a l ha)
    · rw [hpassed]
      exact nofun
    · rw [hown', hpc]
      exact ⟨fun h => ⟨rfl, h⟩, fun h => h.2⟩
    · refine fun hw => .inl ⟨hwaits 0 () hw.pc, fun hd => ?_⟩
      obtain ⟨hd', hproc⟩ := hdozes hd
      rw [← hproc]
      exact hw.state hd'
    · exact fun _ hann => absurd hpc hann.inside.2
  · -- in `wakeup`
    obtain ⟨hwaits, hpassed, hown, hapart, hend⟩ := Sleepers.wake_step hkind hstep
    have hwas : s.base.owner () = some p ↔ (s.base.pc p).apart = false := by
      rw [h.owner p, hpc]
      exact ⟨fun h => h.2, fun h => ⟨rfl, h⟩⟩
    have happ : (s.base.pc p).apart = false := by
      cases hb : s.base.pc p <;> rw [hb] at hkind <;> first | rfl | cases hkind
    refine h.calm hm rfl hset ?_ ?_ ?_ ?_ ?_ ?_
    · rcases hend with hend | ⟨hend, _⟩
      · exact .inr (.inr (.inl ⟨hpc, hend⟩))
      · exact .inl hend
    · rw [hwaits]
      exact nofun
    · intro a k ha
      obtain ⟨j, hj⟩ := hpassed a k ha
      exact h.passed p a j hj
    · rw [hown, hwas, hpc, happ, hapart]
      exact ⟨fun h => ⟨rfl, h⟩, fun h => h.2⟩
    · exact fun hw => absurd hwaits hw.ne_none
    intro hmine _
    rcases hend with hend | ⟨hend, a, k, hk, hn⟩
    · refine .inl ⟨by rw [hown]; exact hmine, .inr (.inr ⟨hpc, fun hr => ?_⟩)⟩
      rw [hr] at hend
      cases hend
    right
    intro r hw
    have hne : r ≠ p := by
      rintro rfl
      exact hw.ne_none hwaits
    have ha := h.passed p a k hk
    subst ha
    exact h.base.scan r p 0 () k hk hmine (r.isLt.trans_le hn) (hw.frame hm.frame hne)
  · -- in `kill`
    obtain ⟨hwaits, hpassed, hown, hend⟩ := Sleepers.kill_step hkind hstep
    have hout : (s.pc p).inside = false := by rcases hpc with hpc | hpc <;> rw [hpc] <;> rfl
    refine h.calm hm rfl hset ?_ ?_ ?_ ?_ ?_ ?_
    · rcases hend with hend | hend
      · exact .inl hend
      · exact .inr (.inr (.inr ⟨hpc, hend⟩))
    · rw [hwaits]
      exact nofun
    · rw [hpassed]
      exact nofun
    · rw [hown, h.owner p, hout]
      simp
    · exact fun hw => absurd hwaits hw.ne_none
    · intro _ hann
      rw [hann.inside.1] at hout
      cases hout

theorem moves_refl (h : s.base.Inv) (p : Fin n) : s.base.Moves s.base p :=
  ⟨Sleepers.Frame.refl _ p, h, fun _ _ hw => hw⟩

theorem run_facts (h : b.pc p = .run) : (∀ a l, (b.pc p).waits = some (a, l) → a = 0) ∧
      (∀ a k, (b.pc p).passed = some (a, k) → a = 0) ∧ (b.pc p).apart = false ∧
      ¬b.Waiting p 0 () := by
  rw [h]
  exact ⟨nofun, nofun, rfl, fun hw => hw.ne_none (by rw [h]; rfl)⟩

section

variable (h : Inv s) {o : Option (Holder n)} {a : Nat} {l : Unit}
include h

section

variable (hrun : s.base.pc p = .run)
include hrun

theorem Inv.local (hhas : pc.has = (s.pc p).has)
    (hset : pc = .setLocked → s.locked = false) (hinside : pc.inside = (s.pc p).inside)
    (hann : (s.pc p).Announces (s.base.pc p) → pc.Announces (s.base.pc p)) :
    Inv ⟨s.base, s.locked, m, update s.pc p pc⟩ := by
  obtain ⟨hwaits, hpassed, _, hnot⟩ := run_facts hrun
  refine h.calm (moves_refl h.base p) hhas hset (.inl hrun) hwaits hpassed ?_
    (fun hw => absurd hw hnot) fun hown ha => .inl ⟨hown, hann ha⟩
  rw [hinside]
  exact h.owner p

theorem Inv.acquire (hfree : s.base.owner () = none)
    (hhas : pc.has = (s.pc p).has) (hpc : pc ≠ .setLocked) (hinside : pc.inside = true) :
    Inv ⟨s.base.setOwner () (some p), s.locked, m, update s.pc p pc⟩ := by
  have hrun' : (s.base.setOwner () (some p)).pc p = .run := hrun
  obtain ⟨hwaits, hpassed, hapart, hnot⟩ := run_facts hrun'
  have hm : s.base.Moves (s.base.setOwner () (some p)) p :=
    Sleepers.owner_moves h.base hrun (by simp [hfree]) (by simp [eq_comm])
  refine h.calm hm hhas (fun he => absurd he hpc) (.inl hrun') hwaits hpassed ?_
    (fun hw => absurd hw hnot) fun hown => ?_
  · exact ⟨fun _ => ⟨hinside, hapart⟩, fun _ => Sleepers.setOwner_owner ..⟩
  · rw [hfree] at hown
    cases hown

theorem Inv.release (hown : s.base.owner () = some p)
    (hhas : pc.has = (s.pc p).has) (hpc : pc ≠ .setLocked) (hinside : pc.inside = false)
    (hann : ¬(s.pc p).Announces (s.base.pc p)) :
    Inv ⟨s.base.setOwner () none, s.locked, m, update s.pc p pc⟩ := by
  have hrun' : (s.base.setOwner () none).pc p = .run := hrun
  obtain ⟨hwaits, hpassed, _, hnot⟩ := run_facts hrun'
  have hm : s.base.Moves (s.base.setOwner () none) p :=
    Sleepers.owner_moves h.base hrun (by simp [hown, eq_comm]) (by simp)
  refine h.calm hm hhas (fun he => absurd he hpc) (.inl hrun') hwaits hpassed ?_
    (fun hw => absurd hw hnot) fun _ ha => absurd ha hann
  simp [hinside]

theorem Inv.sleep (hpc : s.pc p = .test)
    (hlocked : s.locked = true) (hown : s.base.owner () = some p) :
    Inv ⟨s.base.setPc p (.lockSelf 0 ()), s.locked, m, update s.pc p .test⟩ := by
  have hm : s.base.Moves (s.base.setPc p (.lockSelf 0 ())) p := by
    refine Sleepers.call_moves h.base hrun ?_ ?_ ?_ rfl rfl rfl
    · simp [hown]
    · simp [hown]
    · simp
  refine h.calm hm (by rw [hpc]) (fun he => by cases he) ?_ ?_ ?_ ?_ ?_ ?_
  · exact .inr (.inl ⟨rfl, by simp [SleepPc.kind]⟩)
  · simp [eq_comm]
  · simp
  · simp [hown, LockPc.inside, SleepPc.apart]
  · exact fun _ => .inr hlocked
  exact fun _ hann => absurd hpc hann.inside.2

theorem Inv.wakeup (hpc : s.pc p = .wakeup) :
    Inv ⟨s.base.setPc p (.wake 0 0), s.locked, m, update s.pc p .leave⟩ := by
  have hm : s.base.Moves (s.base.setPc p (.wake 0 0)) p :=
    Sleepers.call_moves h.base hrun (by simp) (by simp) (by simp) rfl rfl rfl
  have hown : s.base.owner () = some p := by
    rw [h.owner p, hpc, hrun]
    exact ⟨rfl, rfl⟩
  refine h.calm hm (by rw [hpc]; rfl) (fun he => by cases he) ?_ ?_ ?_ ?_ ?_ ?_
  · exact .inr (.inr (.inl ⟨rfl, by simp [SleepPc.kind]⟩))
  · simp
  · simp [eq_comm]
  · simp [hown, LockPc.inside, SleepPc.apart]
  · exact fun hw => absurd (by simp) hw.ne_none
  · exact fun _ _ => .inl ⟨hown, .inr (.inr ⟨rfl, by simp⟩)⟩

theorem Inv.kill {pid : Int} (hpc : s.pc p = .idle ∨ s.pc p = .holding) :
    Inv ⟨s.base.setPc p (.kill pid 0), s.locked, m, update s.pc p (s.pc p)⟩ := by
  have hm : s.base.Moves (s.base.setPc p (.kill pid 0)) p :=
    Sleepers.call_moves h.base hrun (by simp) (by simp) (by simp) rfl rfl rfl
  have hown : ¬s.base.owner () = some p := by
    rw [h.owner p]
    rcases hpc with hpc | hpc <;> rw [hpc] <;> simp [LockPc.inside]
  refine h.calm hm rfl (h.free p) ?_ ?_ ?_ ?_ ?_ ?_
  · exact .inr (.inr (.inr ⟨hpc, by simp [SleepPc.kind]⟩))
  · simp
  · simp
  · rcases hpc with hpc | hpc <;> simp [hpc, LockPc.inside, hown]
  · exact fun hw => absurd (by simp) hw.ne_none
  · exact fun hmine => absurd hmine hown

end

theorem Inv.schedLock
    (hold : ∀ q, s.base.lock p ≠ some (.proc q)) (hnew : ∀ q, o ≠ some (.proc q)) :
    Inv ⟨s.base.setLock p o, s.locked, m, update s.pc p (s.pc p)⟩ := by
  refine h.calm (Sleepers.schedLock_moves h.base hold hnew) rfl (h.free p) (h.calls p) (h.waits p)
    (h.passed p) (h.owner p) (fun hw => .inl ⟨hw.pc, hw.state⟩) fun hown hann => .inl ⟨hown, hann⟩

theorem Inv.dispatch (hpc : s.base.pc p = .away a l)
    (hlock : s.base.lock p = some .sched) (hready : (s.base.proc p).state = .runnable) :
    Inv ⟨((s.base.setProc p { s.base.proc p with state := .running }).setLock p
      (some (.proc p))).setPc p (.clearChan l), s.locked, m, update s.pc p (s.pc p)⟩ := by
  have htest : s.pc p = .test := by
    have hcalls := h.calls p
    rw [hpc] at hcalls
    rcases hcalls with hout | ⟨hpc', _⟩ | ⟨_, hkind⟩ | ⟨_, hkind⟩
    · cases hout
    · exact hpc'
    · cases hkind
    · cases hkind
  have hown : ¬s.base.owner () = some p := by
    rw [h.owner p, hpc]
    simp [SleepPc.apart]
  refine h.calm (Sleepers.dispatch_moves h.base hpc hlock hready) rfl (h.free p) ?_ ?_ ?_ ?_ ?_ ?_
  · exact .inr (.inl ⟨htest, by simp [SleepPc.kind]⟩)
  · simp
  · simp
  · simp [hown, SleepPc.apart]
  · exact fun hw => absurd (by simp) hw.ne_none
  · exact fun hmine => absurd hmine hown

theorem Inv.switch (pc : LockPc) (hrun : s.base.pc p = .run)
    (hinside : pc.inside = (s.pc p).inside) :
    (∀ q, (update s.pc p pc q).Calls (s.base.pc q)) ∧ ∀ q, s.base.owner () = some q ↔
      (update s.pc p pc q).inside = true ∧ (s.base.pc q).apart = false := by
  constructor
  · intro q
    by_cases hq : q = p
    · rw [hq]
      exact .inl hrun
    · simpa only [update_of_ne hq] using h.calls q
  · intro q
    rcases eq_or_ne q p with rfl | hq
    · rw [update_self, hinside]
      exact h.owner q
    · simpa only [update_of_ne hq] using h.owner q

theorem Inv.setLocked (hrun : s.base.pc p = .run) (hpc : s.pc p = .setLocked) :
    Inv ⟨s.base, true, m, update s.pc p .setPid⟩ := by
  have hown : s.base.owner () = some p := by
    rw [h.owner p, hpc, hrun]
    exact ⟨rfl, rfl⟩
  have hnone : ∀ q, (s.pc q).has = false := by
    intro q
    have hfree := h.free p hpc
    by_contra hq
    have hlocked := h.locked.mpr ⟨q, Bool.eq_true_of_not_eq_false hq⟩
    rw [hfree] at hlocked
    cases hlocked
  have hself : update s.pc p LockPc.setPid p = .setPid := update_self ..
  have hother : ∀ q, q ≠ p → update s.pc p LockPc.setPid q = s.pc q :=
    fun q hq => update_of_ne hq ..
  have hhas : ∀ q, (update s.pc p LockPc.setPid q).has = true → q = p := by
    intro q hq
    by_contra hne
    rw [hother q hne, hnone q] at hq
    cases hq
  obtain ⟨hcalls, howner⟩ := h.switch .setPid hrun (by rw [hpc]; rfl)
  refine ⟨h.base, hcalls, h.waits, h.passed, howner, fun q r hq hr => ?_, ?_, fun q hq => ?_,
    fun q _ => .inl rfl⟩
  · rw [hhas q hq, hhas r hr]
  · exact ⟨fun _ => ⟨p, by simp only [hself]; rfl⟩, fun _ => rfl⟩
  -- nobody else is between the test and the assignment
  have hne : q ≠ p := by
    rintro rfl
    simp only [hself, reduceCtorEq] at hq
  simp only [hother q hne] at hq
  have hinner : s.base.pc q = .run := by
    have hcalls := h.calls q
    rw [hq] at hcalls
    rcases hcalls with hout | ⟨hpc', _⟩ | ⟨hpc', _⟩ | ⟨hpc' | hpc', _⟩
    · exact hout
    all_goals cases hpc'
  have howner := (h.owner q).mpr (by rw [hq, hinner]; exact ⟨rfl, rfl⟩)
  rw [hown] at howner
  exact absurd (Option.some.inj howner).symm hne

theorem Inv.clearLocked (hrun : s.base.pc p = .run) (hpc : s.pc p = .clearLocked) :
    Inv ⟨s.base, false, m, update s.pc p .clearPid⟩ := by
  have hown : s.base.owner () = some p := by
    rw [h.owner p, hpc, hrun]
    exact ⟨rfl, rfl⟩
  have hself : update s.pc p LockPc.clearPid p = .clearPid := update_self ..
  have hother : ∀ q, q ≠ p → update s.pc p LockPc.clearPid q = s.pc q :=
    fun q hq => update_of_ne hq ..
  have hhas : ∀ q, ¬(update s.pc p LockPc.clearPid q).has = true := by
    intro q hq
    by_cases hqp : q = p
    · rw [hqp, hself] at hq
      cases hq
    · rw [hother q hqp] at hq
      exact hqp (h.has q p hq (by rw [hpc]; rfl))
  obtain ⟨hcalls, howner⟩ := h.switch .clearPid hrun (by rw [hpc]; rfl)
  exact ⟨h.base, hcalls, h.waits, h.passed, howner, fun q r hq => absurd hq (hhas q),
    ⟨fun hf => (nomatch hf), fun ⟨q, hq⟩ => absurd hq (hhas q)⟩, fun q _ => rfl,
    fun q _ => .inr ⟨p, hown, .inl hself⟩⟩

theorem lockStep_inv (hrun : s.base.pc p = .run)
    (hstep : s.lockStep p (s.pc p) = some t) : Inv t := by
  cases hpc : s.pc p <;> rw [hpc] at hstep <;> simp only [lockStep, reduceCtorEq] at hstep
  case enter | back =>
    obtain ⟨b, hb, rfl⟩ := Option.map_eq_some_iff.mp hstep
    obtain ⟨⟨_, hfree⟩, hb⟩ := Option.ite_none_right_eq_some.mp hb
    cases hb
    exact h.acquire hrun hfree (by rw [hpc]; rfl) (by decide) rfl
  case test =>
    split at hstep
    · rename_i hlocked
      obtain ⟨b, hb, rfl⟩ := Option.map_eq_some_iff.mp hstep
      obtain ⟨⟨_, hown⟩, hb⟩ := Option.ite_none_right_eq_some.mp hb
      cases hb
      exact h.sleep hrun hpc hlocked hown
    · rename_i hlocked
      cases hstep
      refine h.local hrun ?_ (fun _ => Bool.eq_false_of_not_eq_true hlocked) ?_ ?_ <;>
        simp [hpc, LockPc.has, LockPc.inside, LockPc.Announces]
  case setLocked =>
    cases hstep
    exact h.setLocked hrun hpc
  case setPid | clearPid =>
    cases hstep
    refine h.local hrun ?_ ?_ ?_ ?_ <;> simp [hpc, LockPc.has, LockPc.inside, LockPc.Announces]
  case done | leave =>
    obtain ⟨b, hb, rfl⟩ := Option.map_eq_some_iff.mp hstep
    obtain ⟨⟨_, hown⟩, hb⟩ := Option.ite_none_right_eq_some.mp hb
    cases hb
    refine h.release hrun hown (by rw [hpc]; rfl) (by decide) rfl ?_
    simp [hpc, hrun, LockPc.Announces]
  case clearLocked =>
    cases hstep
    exact h.clearLocked hrun hpc
  case wakeup =>
    obtain ⟨b, hb, rfl⟩ := Option.map_eq_some_iff.mp hstep
    obtain ⟨_, hb⟩ := Option.ite_none_right_eq_some.mp hb
    cases hb
    exact h.wakeup hrun hpc

theorem step_inv {x : LockAct n} (hstep : s.step x = some t) : Inv t := by
  cases x with
  | acquiresleep p =>
    obtain ⟨⟨hrun, hpc⟩, hstep⟩ := Option.ite_none_right_eq_some.mp hstep
    cases hstep
    refine h.local (Sleepers.isRun_iff.mp hrun) ?_ ?_ ?_ ?_ <;>
      simp [hpc, LockPc.has, LockPc.inside, LockPc.Announces]
  | releasesleep p =>
    obtain ⟨⟨hrun, hpc⟩, hstep⟩ := Option.ite_none_right_eq_some.mp hstep
    cases hstep
    refine h.local (Sleepers.isRun_iff.mp hrun) ?_ ?_ ?_ ?_ <;>
      simp [hpc, LockPc.has, LockPc.inside, LockPc.Announces]
  | kill p pid =>
    obtain ⟨hpc, hstep⟩ := Option.ite_none_right_eq_some.mp hstep
    obtain ⟨b, hb, rfl⟩ := Option.map_eq_some_iff.mp hstep
    obtain ⟨hrun, hb⟩ := Option.ite_none_right_eq_some.mp hb
    cases hb
    exact h.kill (Sleepers.isRun_iff.mp hrun) hpc
  | look q =>
    obtain ⟨b, hb, rfl⟩ := Option.map_eq_some_iff.mp hstep
    obtain ⟨hfree, hb⟩ := Option.ite_none_right_eq_some.mp hb
    cases hb
    exact h.schedLock (by simp [hfree]) (by simp)
  | dispatch q =>
    obtain ⟨b, hb, rfl⟩ := Option.map_eq_some_iff.mp hstep
    simp only [Sleepers.step] at hb
    cases hpc : s.base.pc q <;> rw [hpc] at hb <;>
      simp only [Sleepers.dispatchStep, reduceCtorEq] at hb
    obtain ⟨⟨hlock, hready⟩, hb⟩ := Option.ite_none_right_eq_some.mp hb
    cases hb
    exact h.dispatch hpc hlock hready
  | leave q =>
    obtain ⟨b, hb, rfl⟩ := Option.map_eq_some_iff.mp hstep
    obtain ⟨hlock, hb⟩ := Option.ite_none_right_eq_some.mp hb
    cases hb
    exact h.schedLock (by simp [hlock]) (by simp)
  | run p =>
    simp only [step] at hstep
    split at hstep
    · rename_i hrun
      have hrun := Sleepers.isRun_iff.mp hrun
      exact lockStep_inv h hrun hstep
    · rename_i hrun
      obtain ⟨b, hb, rfl⟩ := Option.map_eq_some_iff.mp hstep
      exact h.inner (fun he => hrun (Sleepers.isRun_iff.mpr he)) hb

end

theorem reaches_inv {pid : Fin n → Int} (h : Reaches step (fun _ _ => True) (init pid) s) :
    Inv s := by
  refine Reaches.invariant (I := Inv) h (init_inv pid) ?_
  intro u v x hu _ hstep
  exact step_inv hu hstep

theorem Inv.sleeping (h : Inv s) (hstate : (s.base.proc p).state = .sleeping) :
    s.base.Waiting p 0 () := by
  have hdozes := (h.base.own p).asleep hstate
  obtain ⟨a, l, hwaits⟩ : ∃ a l, (s.base.pc p).waits = some (a, l) := by
    cases hpc : s.base.pc p <;> rw [hpc] at hdozes
    case sched | away => exact ⟨_, _, rfl⟩
    all_goals cases hdozes
  have ha := h.waits p a l hwaits
  subst ha
  exact ⟨hwaits, fun _ => hstate⟩

/-- Users of a sleep-lock: only one has it, and whoever sleeps on it while its
spinlock is free finds it taken.  Users of any spinlocks: a process that has called
`sleep(a, l)` is made `RUNNABLE` before a `wakeup(a)` by the owner of `l` ends. -/
theorem no_lost_wakeup (n : Nat) (pid : Fin n → Int) :
    (∀ s : Sleeplocks n, Reaches step (fun _ _ => True) (init pid) s →
      (∀ p q, (s.pc p).has = true → (s.pc q).has = true → p = q) ∧
        (s.base.owner () = none → ∀ p, (s.base.proc p).state = .sleeping →
          (s.base.proc p).chan = some (.addr 0) → s.locked = true)) ∧
      ∀ (Λ : Type) [DecidableEq Λ] (s t : Sleepers n Λ) (p q : Fin n) (a k : Nat) (l : Λ),
        Reaches Sleepers.step (fun _ _ => True) (Sleepers.init pid) s → s.Waiting p a l →
        Reaches Sleepers.step (fun _ _ => True) s t → (t.pc q).passed = some (a, k) → n ≤ k →
        t.owner l = some q → s.woken p < t.woken p := by
  refine ⟨fun s hs => ⟨?_, ?_⟩, ?_⟩
  · exact (reaches_inv hs).has
  · intro hfree p hstate _
    have hinv := reaches_inv hs
    rcases hinv.wait p (hinv.sleeping hstate) with hlocked | ⟨q, hq, _⟩
    · exact hlocked
    · rw [hfree] at hq
      cases hq
  · intro Λ _ s t p q a k l hs hw ht hpc hk hown
    exact Sleepers.waiting_woken hs hw ht hpc hk hown

/-- Process 1 calls `sleep` and has let go of the spinlock; process 0 takes it, and its
`wakeup` comes to the end of the table after process 1 has been switched out. -/
theorem no_lost_wakeup_two : ∃ s t : Sleepers 2 Unit, s.Waiting 1 7 () ∧
    t.owner () = some 0 ∧ (t.pc 0).passed = some (7, 2) ∧ s.woken 1 < t.woken 1 := by
  have hrun : ((exec Sleepers.step (fun _ _ => true) (Sleepers.init (fun _ => 1) : Sleepers 2 Unit)
      [.acquire 1 (), .sleep 1 7 (), .run 1, .run 1]).bind fun s =>
      (exec Sleepers.step (fun _ _ => true) s
        [.acquire 0 (), .wakeup 0 7, .run 0, .run 0, .run 0, .run 1, .run 1, .run 1, .leave 1,
          .run 0, .run 0]).map fun t =>
            ((s.pc 1).waits, (s.pc 1).dozes, t.owner (), (t.pc 0).passed)) =
      some (some (7, ()), false, some 0, some (7, 2)) := by decide +kernel
  obtain ⟨s, hs, hmap⟩ := Option.bind_eq_some_iff.mp hrun
  obtain ⟨t, ht, hres⟩ := Option.map_eq_some_iff.mp hmap
  simp only [Prod.mk.injEq] at hres
  obtain ⟨hwaits, hdozes, hown, hpassed⟩ := hres
  have hw : s.Waiting 1 7 () := ⟨hwaits, fun hd => by rw [hdozes] at hd; cases hd⟩
  exact ⟨s, t, hw, hown, hpassed, (no_lost_wakeup 2 fun _ => 1).2 Unit s t 1 0 7 2 ()
    (.exec .refl (fun _ _ _ _ => trivial) hs) hw (.exec .refl (fun _ _ _ _ => trivial) ht) hpassed
    (Nat.le_refl 2) hown⟩

end Sleeplocks

end Xv6.Kernel
