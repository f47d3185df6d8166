import Xv6.Machine.Sleep
/-!
# No wakeup is lost

A process that calls `sleep(chan, lk)` holds `lk` until it has its own `p->lock`, and
that lock until the scheduler has taken over.  So a `wakeup(chan)` by a process that
has `lk` finds it either asleep on `chan` or made `RUNNABLE` before.
-/

namespace Xv6.Kernel

open Xv6.Lib Function

variable {n : Nat} {Λ : Type}

namespace SleepPc

def waits : SleepPc n Λ → Option (Nat × Λ)
  | .lockSelf a l | .letGo a l | .setChan a l | .setState a l | .sched a l | .away a l =>
    some (a, l)
  | _ => none

def keeps : SleepPc n Λ → Option Λ
  | .lockSelf _ l | .letGo _ l => some l
  | _ => none

def dozes : SleepPc n Λ → Bool
  | .sched _ _ | .away _ _ => true
  | _ => false

def chan : SleepPc n Λ → Option Nat
  | .setState a _ | .sched a _ | .away a _ => some a
  | _ => none

def locksSelf : SleepPc n Λ → Bool
  | .letGo _ _ | .setChan _ _ | .setState _ _ | .sched _ _ | .clearChan _ | .unlockSelf _ => true
  | _ => false

def looksAt : SleepPc n Λ → Option (Fin n)
  | .wakeLook _ q | .wakeNext _ q | .killLook _ q | .killNext _ q _ => some q
  | _ => none

/-- The argument of a `wakeup`, and the number of entries it has dealt with. -/
def passed : SleepPc n Λ → Option (Nat × Nat)
  | .wake a q => some (a, q)
  | .wakeLook a q => some (a, q)
  | .wakeNext a q => some (a, q + 1)
  | _ => none

attribute [simp] waits keeps dozes chan locksSelf looksAt passed

end SleepPc

namespace SleepAct

def actor : SleepAct n Λ → Fin n
  | .acquire p _ | .release p _ | .sleep p _ _ | .wakeup p _ | .kill p _ | .run p | .look p
  | .dispatch p | .leave p => p

end SleepAct

namespace Sleepers

variable {p q r : Fin n} {s t : Sleepers n Λ} {a : Nat} {l : Λ} {o : Option (Fin n)}

section Fields

variable (s : Sleepers n Λ) (p q : Fin n)

@[simp] theorem setPc_pc (pc : SleepPc n Λ) : (s.setPc p pc).pc p = pc := update_self ..
@[simp] theorem setLock_lock (o : Option (Holder n)) : (s.setLock q o).lock q = o :=
  update_self ..
@[simp] theorem setProc_proc (x : Proc n) : (s.setProc q x).proc q = x := update_self ..

variable [DecidableEq Λ] (l : Λ) (o : Option (Fin n))

@[simp] theorem setOwner_owner : (s.setOwner l o).owner l = o := update_self ..

end Fields

section Frame

structure Frame (s t : Sleepers n Λ) (p : Fin n) : Prop where
  pc : ∀ q, q ≠ p → t.pc q = s.pc q
  owner : ∀ q l, q ≠ p → (t.owner l = some q ↔ s.owner l = some q)
  lock : ∀ q r, q ≠ p → (t.lock r = some (.proc q) ↔ s.lock r = some (.proc q))
  chan : ∀ q, q ≠ p → (t.proc q).chan = (s.proc q).chan
  state : ∀ q, q ≠ p → (t.proc q).state = .sleeping → (s.proc q).state = .sleeping
  stay : ∀ q, q ≠ p → (s.proc q).state = .sleeping →
    (t.proc q).state = .sleeping ∨ s.woken q < t.woken q
  woken : ∀ q, s.woken q ≤ t.woken q

namespace Frame

variable {x : Proc n}

theorem refl (s : Sleepers n Λ) (p : Fin n) : Frame s s p where
  pc := fun _ _ => rfl
  owner := fun _ _ _ => Iff.rfl
  lock := fun _ _ _ => Iff.rfl
  chan := fun _ _ => rfl
  state := fun _ _ h => h
  stay := fun _ _ h => .inl h
  woken := fun _ => le_rfl

theorem setPc (h : Frame s t p) (pc : SleepPc n Λ) : Frame s (t.setPc p pc) p :=
  { h with pc := fun q hq => (update_of_ne hq _ _).trans (h.pc q hq) }

theorem setOwner [DecidableEq Λ] (h : Frame s t p)
    (hold : ∀ q, q ≠ p → t.owner l ≠ some q) (hnew : ∀ q, q ≠ p → o ≠ some q) :
    Frame s (t.setOwner l o) p := by
  refine { h with owner := fun q m hq => ?_ }
  rw [← h.owner q m hq]
  rcases eq_or_ne m l with rfl | hm
  · have hself : (t.setOwner m o).owner m = o := update_self ..
    rw [hself]
    exact ⟨fun ho => absurd ho (hnew q hq), fun ho => absurd ho (hold q hq)⟩
  · have hother : (t.setOwner l o).owner m = t.owner m := update_of_ne hm ..
    rw [hother]

theorem setLock {o : Option (Holder n)} (h : Frame s t p)
    (hold : ∀ q, q ≠ p → t.lock r ≠ some (.proc q)) (hnew : ∀ q, q ≠ p → o ≠ some (.proc q)) :
    Frame s (t.setLock r o) p := by
  refine { h with lock := fun q m hq => ?_ }
  rw [← h.lock q m hq]
  rcases eq_or_ne m r with rfl | hm
  · have hself : (t.setLock m o).lock m = o := update_self ..
    rw [hself]
    exact ⟨fun ho => absurd ho (hnew q hq), fun ho => absurd ho (hold q hq)⟩
  · have hother : (t.setLock r o).lock m = t.lock m := update_of_ne hm ..
    rw [hother]

theorem setProc (h : Frame s t p) (x : Proc n) : Frame s (t.setProc p x) p := by
  have hother : ∀ q, q ≠ p → (t.setProc p x).proc q = t.proc q :=
    fun q hq => update_of_ne hq ..
  refine { h with
    chan := fun q hq => ?_, state := fun q hq hs => h.state q hq ?_, stay := fun q hq hs => ?_ }
  · rw [hother q hq]
    exact h.chan q hq
  · rwa [hother q hq] at hs
  · rw [hother q hq]
    exact h.stay q hq hs

theorem woken_rouse (t : Sleepers n Λ) (r : Fin n) (x : Proc n) (q : Fin n) :
    t.woken q ≤ (t.rouse r x).woken q := by
  unfold Sleepers.rouse
  simp only
  split
  · exact le_rfl
  by_cases hq : q = r
  · rw [hq, update_self]
    exact Nat.le_succ _
  · rw [update_of_ne hq]

theorem rouse (h : Frame s t p) (hchan : x.chan = (t.proc r).chan)
    (hstate : x.state = .sleeping → (t.proc r).state = .sleeping) : Frame s (t.rouse r x) p := by
  have hproc : (t.rouse r x).proc = update t.proc r x := rfl
  refine { h with
    chan := fun q hq => ?_, state := fun q hq hs => h.state q hq ?_, stay := fun q hq hs => ?_
    woken := fun q => (h.woken q).trans (woken_rouse t r x q) }
  · rw [hproc, ← h.chan q hq]
    by_cases hr : q = r
    · rw [hr, update_self, hchan]
    · rw [update_of_ne hr]
  · rw [hproc] at hs
    by_cases hr : q = r
    · rw [hr, update_self] at hs
      rw [hr]
      exact hstate hs
    · rwa [update_of_ne hr] at hs
  rw [hproc]
  rcases h.stay q hq hs with hsleep | hlt
  · rcases eq_or_ne q r with rfl | hr
    · rw [update_self]
      by_cases hx : x.state = .sleeping
      · exact .inl hx
      right
      have hne : x.state ≠ (t.proc q).state := by rwa [hsleep]
      have hup : (t.rouse q x).woken q = t.woken q + 1 := by
        unfold Sleepers.rouse
        simp only [if_neg hne, update_self]
      have hle := h.woken q
      omega
    · rw [update_of_ne hr]
      exact .inl hsleep
  · exact .inr (hlt.trans_le (woken_rouse t r x q))

end Frame

end Frame

section Invariant

/-- Process `p` has called `sleep(a, l)` and was not made `RUNNABLE` since. -/
structure Waiting (s : Sleepers n Λ) (p : Fin n) (a : Nat) (l : Λ) : Prop where
  pc : (s.pc p).waits = some (a, l)
  state : (s.pc p).dozes = true → (s.proc p).state = .sleeping

structure Own (s : Sleepers n Λ) (p : Fin n) : Prop where
  keeps : ∀ l, (s.pc p).keeps = some l → s.owner l = some p
  self : (s.pc p).locksSelf = true → s.lock p = some (.proc p)
  looks : ∀ q, (s.pc p).looksAt = some q → s.lock q = some (.proc p)
  chan : ∀ a, (s.pc p).chan = some a → (s.proc p).chan = some (.addr a)
  asleep : (s.proc p).state = .sleeping → (s.pc p).dozes = true

/-- Nobody waits behind a `wakeup` under the lock it called `sleep` with. -/
structure Inv (s : Sleepers n Λ) : Prop where
  own : ∀ p, Own s p
  scan : ∀ p q a l k, (s.pc q).passed = some (a, k) → s.owner l = some q → p.val < k →
    ¬Waiting s p a l

theorem Own.frame (h : Own s q) (hf : Frame s t p) (hne : q ≠ p) : Own t q where
  keeps := fun l hl => (hf.owner q l hne).mpr (h.keeps l (by rwa [hf.pc q hne] at hl))
  self := fun hl => (hf.lock q q hne).mpr (h.self (by rwa [hf.pc q hne] at hl))
  looks := fun r hr => (hf.lock q r hne).mpr (h.looks r (by rwa [hf.pc q hne] at hr))
  chan := fun a ha => (hf.chan q hne).trans (h.chan a (by rwa [hf.pc q hne] at ha))
  asleep := fun hs => by
    rw [hf.pc q hne]
    exact h.asleep (hf.state q hne hs)

theorem Waiting.frame (h : Waiting t q a l) (hf : Frame s t p) (hne : q ≠ p) : Waiting s q a l where
  pc := by
    rw [← hf.pc q hne]
    exact h.pc
  state := fun hd => hf.state q hne (h.state (by rwa [hf.pc q hne]))

theorem Inv.frame (h : Inv s) (hf : Frame s t p) (hown : Own t p)
    (hwait : ∀ a l, Waiting t p a l → Waiting s p a l ∨ s.owner l = some p)
    (hscan : ∀ q a l k, (t.pc p).passed = some (a, k) → t.owner l = some p → q.val < k →
      ¬Waiting t q a l) : Inv t where
  own := by
    intro q
    by_cases hq : q = p
    · rwa [hq]
    · exact (h.own q).frame hf hq
  scan := by
    intro r q a l k hk hl hr hw
    rcases eq_or_ne q p with rfl | hq
    · exact hscan r a l k hk hl hr hw
    rw [hf.pc q hq] at hk
    rw [hf.owner q l hq] at hl
    rcases eq_or_ne r p with rfl | hrp
    · rcases hwait a l hw with hold | hmine
      · exact h.scan r q a l k hk hl hr hold
      · rw [hl] at hmine
        exact hq (Option.some.inj hmine)
    · exact h.scan r q a l k hk hl hr (hw.frame hf hrp)

theorem Waiting.ne_none (h : Waiting s p a l) : (s.pc p).waits ≠ none := by
  rw [h.pc]
  exact Option.some_ne_none _

theorem isRun_iff {pc : SleepPc n Λ} : isRun pc = true ↔ pc = .run := by
  cases pc <;> simp [isRun]

theorem Own.of_run (h : Own s p) (hpc : s.pc p = .run) (htpc : t.pc p = .run)
    (hproc : t.proc p = s.proc p) : Own t p := by
  constructor
  case asleep =>
    intro hs
    rw [hproc] at hs
    have hd := h.asleep hs
    rw [hpc] at hd
    cases hd
  all_goals simp [htpc]

/-- A process that waits cannot be looked at by the owner of its spinlock before it
has called `sched`. -/
theorem Inv.waiting_away (h : Inv s) (hq : (s.pc q).waits = some (a, l)) (hown : s.owner l = some p)
    (hlook : (s.pc p).looksAt = some q) (hne : q ≠ p) : s.pc q = .away a l := by
  have hkeeps := (h.own q).keeps
  have hself := (h.own q).self
  have hlock := (h.own p).looks q hlook
  cases hpc : s.pc q <;> rw [hpc] at hq hkeeps hself <;>
    simp only [SleepPc.waits, reduceCtorEq, Option.some.injEq, Prod.mk.injEq] at hq
  case away => rw [hq.1, hq.2]
  case lockSelf | letGo =>
    have hmine := hkeeps l (by rw [← hq.2]; rfl)
    rw [hown] at hmine
    exact absurd (Option.some.inj hmine).symm hne
  case setChan | setState | sched =>
    have hmine := hself rfl
    rw [hlock] at hmine
    cases hmine
    exact absurd rfl hne

end Invariant

/-! ## Every step keeps the invariant -/

section Steps

variable {k : Nat} {pid : Int}

structure Moves (s t : Sleepers n Λ) (p : Fin n) : Prop where
  frame : Frame s t p
  inv : Inv t
  wait : ∀ a l, Waiting s p a l → Waiting t p a l

theorem Moves.scans (h : Inv s) (hwaits : (s.pc p).waits = none) (hf : Frame s t p)
    (hown : Own t p) (hwaits' : (t.pc p).waits = none)
    (hscan : ∀ q a l k, q ≠ p → (t.pc p).passed = some (a, k) → t.owner l = some p → q.val < k →
      ¬Waiting t q a l) : Moves s t p where
  frame := hf
  inv := h.frame hf hown (fun a l hw => absurd hwaits' hw.ne_none) fun q a l k hk hl hq hw =>
    hscan q a l k (by rintro rfl; exact hw.ne_none hwaits') hk hl hq hw
  wait := fun a l hw => absurd hwaits hw.ne_none

theorem Moves.plain (h : Inv s) (hwaits : (s.pc p).waits = none) (hf : Frame s t p)
    (hown : Own t p) (hwaits' : (t.pc p).waits = none) (hpassed : (t.pc p).passed = none) :
    Moves s t p := by
  refine .scans h hwaits hf hown hwaits' ?_
  intro q a l k _ hk
  rw [hpassed] at hk
  cases hk

theorem Moves.waits (h : Inv s) (hf : Frame s t p) (hown : Own t p)
    (hwaits : (t.pc p).waits = (s.pc p).waits)
    (hstate : ((t.pc p).dozes = true → (t.proc p).state = .sleeping) ↔
      ((s.pc p).dozes = true → (s.proc p).state = .sleeping))
    (hpassed : (t.pc p).passed = none) : Moves s t p where
  frame := hf
  inv := by
    refine h.frame hf hown
      (fun a l hw => .inl ⟨by rw [← hwaits]; exact hw.pc, hstate.mp hw.state⟩) ?_
    intro q a l k hk
    rw [hpassed] at hk
    cases hk
  wait := fun a l hw => ⟨by rw [hwaits]; exact hw.pc, hstate.mpr hw.state⟩

theorem Own.awake (h : Own s p) (hd : (s.pc p).dozes = false) : (s.proc p).state ≠ .sleeping := by
  intro hs
  rw [h.asleep hs] at hd
  cases hd

section

variable (h : Inv s)
include h

theorem lockSelf_moves (hpc : s.pc p = .lockSelf a l) (hfree : s.lock p = none) :
    Moves s ((s.setLock p (some (.proc p))).setPc p (.letGo a l)) p := by
  have hkeeps := (h.own p).keeps l (by simp [hpc])
  have hawake := (h.own p).awake (by simp [hpc])
  refine Moves.waits h (((Frame.refl s p).setLock ?_ ?_).setPc _) ?_ ?_ ?_ ?_
  · simp [hfree]
  · simp [eq_comm]
  · constructor <;> simp [hkeeps, hawake]
  all_goals simp [hpc]

theorem setChan_moves (hpc : s.pc p = .setChan a l) :
    Moves s ((s.setProc p { s.proc p with chan := some (.addr a) }).setPc p (.setState a l)) p := by
  have hself := (h.own p).self (by simp [hpc])
  have hawake := (h.own p).awake (by simp [hpc])
  refine Moves.waits h (((Frame.refl s p).setProc _).setPc _) ?_ ?_ ?_ ?_
  · constructor <;> simp [hself, hawake]
  all_goals simp [hpc]

theorem setState_moves (hpc : s.pc p = .setState a l) :
    Moves s ((s.setProc p { s.proc p with state := .sleeping }).setPc p (.sched a l)) p := by
  have hself := (h.own p).self (by simp [hpc])
  have hchan := (h.own p).chan a (by simp [hpc])
  refine Moves.waits h (((Frame.refl s p).setProc _).setPc _) ?_ ?_ ?_ ?_
  · constructor <;> simp [hself, hchan]
  all_goals simp [hpc]

theorem sched_moves (hpc : s.pc p = .sched a l) :
    Moves s ((s.setLock p (some .sched)).setPc p (.away a l)) p := by
  have hself := (h.own p).self (by simp [hpc])
  have hchan := (h.own p).chan a (by simp [hpc])
  refine Moves.waits h (((Frame.refl s p).setLock ?_ ?_).setPc _) ?_ ?_ ?_ ?_
  · simp [hself, eq_comm]
  · simp
  · constructor <;> simp [hchan]
  all_goals simp [hpc]

theorem clearChan_moves (hpc : s.pc p = .clearChan l) :
    Moves s ((s.setProc p { s.proc p with chan := none }).setPc p (.unlockSelf l)) p := by
  have hself := (h.own p).self (by simp [hpc])
  have hawake := (h.own p).awake (by simp [hpc])
  refine Moves.plain h (by simp [hpc]) (((Frame.refl s p).setProc _).setPc _) ?_ ?_ ?_
  · constructor <;> simp [hself, hawake]
  all_goals simp

theorem unlockSelf_moves (hpc : s.pc p = .unlockSelf l) :
    Moves s ((s.setLock p none).setPc p (.again l)) p := by
  have hself := (h.own p).self (by simp [hpc])
  have hawake := (h.own p).awake (by simp [hpc])
  refine Moves.plain h (by simp [hpc]) (((Frame.refl s p).setLock ?_ ?_).setPc _) ?_ ?_ ?_
  · simp [hself, eq_comm]
  · simp
  · constructor <;> simp [hawake]
  all_goals simp

end

/-! `wakeup` and `kill` -/

theorem wakeup_chan (x : Proc n) (a : Nat) : (x.wakeup a).chan = x.chan := by
  unfold Proc.wakeup
  split <;> rfl

theorem wakeup_sleeping {x : Proc n} (h : (x.wakeup a).state = .sleeping) :
    x.state = .sleeping ∧ x.chan ≠ some (.addr a) := by
  unfold Proc.wakeup at h
  split at h
  · cases h
  · rename_i hne
    exact ⟨h, fun hchan => hne ⟨h, hchan⟩⟩

theorem kill_awake (x : Proc n) : x.kill.state ≠ .sleeping := by
  unfold Proc.kill
  by_cases hx : x.state = .sleeping <;> simp [hx]

section

variable (h : Inv s) {look : Fin n → SleepPc n Λ} {found : Bool}
include h

theorem scan_moves (hwaits : (s.pc p).waits = none)
    (hdozes : (s.pc p).dozes = false) (hlook : ∀ q, (look q).looksAt = some q ∧
      (look q).waits = none ∧ (look q).keeps = none ∧ (look q).locksSelf = false ∧
      (look q).chan = none)
    (hpassed : ∀ q a m, q.val = k → (look q).passed = some (a, m) → (s.pc p).passed = some (a, m))
    (hstep : s.scan p k look = some t) : Moves s t p := by
  have hawake := (h.own p).awake hdozes
  unfold scan at hstep
  split at hstep
  · rename_i hk
    obtain ⟨hfree, hstep⟩ := Option.ite_none_right_eq_some.mp hstep
    cases hstep
    obtain ⟨hat, hnow, hnok, hnos, hnoc⟩ := hlook ⟨k, hk⟩
    have hf : Frame s ((s.setLock ⟨k, hk⟩ (some (.proc p))).setPc p (look ⟨k, hk⟩)) p := by
      refine ((Frame.refl s p).setLock ?_ ?_).setPc _
      · simp [hfree]
      · simp [eq_comm]
    refine .scans h hwaits hf ?_ (by rw [setPc_pc, hnow]) ?_
    · refine ⟨fun m hm => ?_, fun hl => ?_, fun q hq => ?_, fun b hb => ?_,
        fun hs => absurd hs hawake⟩
      · rw [setPc_pc, hnok] at hm
        cases hm
      · rw [setPc_pc, hnos] at hl
        cases hl
      · rw [setPc_pc, hat] at hq
        cases hq
        exact setLock_lock ..
      · rw [setPc_pc, hnoc] at hb
        cases hb
    · intro q a l m hne hm hl hq hw
      rw [setPc_pc] at hm
      exact h.scan q p a l m (hpassed _ a m rfl hm) hl hq (hw.frame hf hne)
  · cases hstep
    refine Moves.plain h hwaits ((Frame.refl s p).setPc _) ?_ ?_ ?_
    · constructor <;> simp [hawake]
    all_goals simp

theorem wakeLook_moves (hpc : s.pc p = .wakeLook a q) :
    Moves s ((s.rouse q ((s.proc q).wakeup a)).setPc p (.wakeNext a q)) p := by
  have hlooks := (h.own p).looks q (by simp [hpc])
  have hf : Frame s ((s.rouse q ((s.proc q).wakeup a)).setPc p (.wakeNext a q)) p :=
    ((Frame.refl s p).rouse (wakeup_chan _ _) fun hs => (wakeup_sleeping hs).1).setPc _
  have hawake := (h.own p).awake (by simp [hpc])
  refine .scans h (by simp [hpc]) hf ?_ (by simp) ?_
  · constructor
    all_goals simp [hlooks]
    intro hs
    rcases eq_or_ne p q with rfl | hqp
    · rw [update_self] at hs
      exact hawake (wakeup_sleeping hs).1
    · rw [update_of_ne hqp] at hs
      exact hawake hs
  · intro r b l m hne hm hl hr hw
    simp only [setPc_pc, SleepPc.passed, Option.some.injEq, Prod.mk.injEq] at hm
    obtain ⟨rfl, rfl⟩ := hm
    have hold := hw.frame hf hne
    by_cases hrq : r = q
    · -- the entry itself: its process is switched out, so `wakeup` finds it asleep
      subst hrq
      have haway := h.waiting_away hold.pc hl (by simp [hpc]) hne
      have hchan := (h.own r).chan a (by simp [haway])
      have hpcr := hf.pc r hne
      have hs := hw.state (by rw [hpcr, haway]; rfl)
      simp only [setPc_proc, rouse_proc, update_self] at hs
      exact (wakeup_sleeping hs).2 hchan
    · have hlt : r.val < q.val := by
        omega
      exact h.scan r p a l q (by simp [hpc]) hl hlt hold

theorem wakeNext_moves (hpc : s.pc p = .wakeNext a q) :
    Moves s ((s.setLock q none).setPc p (.wake a (q + 1))) p := by
  have hlooks := (h.own p).looks q (by simp [hpc])
  have hawake := (h.own p).awake (by simp [hpc])
  have hf : Frame s ((s.setLock q none).setPc p (.wake a (q + 1))) p := by
    refine ((Frame.refl s p).setLock ?_ ?_).setPc _
    · simp [hlooks, eq_comm]
    · simp
  refine .scans h (by simp [hpc]) hf ?_ (by simp) ?_
  · constructor <;> simp [hawake]
  · intro r b l m hne hm hl hr hw
    simp only [setPc_pc, SleepPc.passed, Option.some.injEq, Prod.mk.injEq] at hm
    obtain ⟨rfl, rfl⟩ := hm
    exact h.scan r p a l (q + 1) (by simp [hpc]) hl hr (hw.frame hf hne)

theorem killLook_moves (hpc : s.pc p = .killLook pid q) :
    Moves s ((s.rouse q (s.proc q).kill).setPc p (.killNext pid q true)) p := by
  have hlooks := (h.own p).looks q (by simp [hpc])
  have hawake := (h.own p).awake (by simp [hpc])
  have hf : Frame s ((s.rouse q (s.proc q).kill).setPc p (.killNext pid q true)) p :=
    ((Frame.refl s p).rouse (x := (s.proc q).kill) rfl fun hs => absurd hs (kill_awake _)).setPc _
  refine Moves.plain h (by simp [hpc]) hf ?_ ?_ ?_
  · constructor
    all_goals simp [hlooks]
    rcases eq_or_ne p q with rfl | hqp
    · rw [update_self]
      exact kill_awake _
    · rw [update_of_ne hqp]
      exact hawake
  all_goals simp

theorem killMiss_moves (hpc : s.pc p = .killLook pid q) :
    Moves s (s.setPc p (.killNext pid q false)) p := by
  have hlooks := (h.own p).looks q (by simp [hpc])
  have hawake := (h.own p).awake (by simp [hpc])
  refine Moves.plain h (by simp [hpc]) ((Frame.refl s p).setPc _) ?_ ?_ ?_
  · constructor <;> simp [hlooks, hawake]
  all_goals simp

theorem killNext_moves (hpc : s.pc p = .killNext pid q found) :
    Moves s ((s.setLock q none).setPc p (if found = true then .run else .kill pid (q + 1))) p := by
  have hlooks := (h.own p).looks q (by simp [hpc])
  have hawake := (h.own p).awake (by simp [hpc])
  refine Moves.plain h (by simp [hpc]) (((Frame.refl s p).setLock ?_ ?_).setPc _) ?_ ?_ ?_
  · simp [hlooks, eq_comm]
  · simp
  · cases found <;> constructor <;> simp [hawake]
  all_goals cases found <;> simp

end

/-! The scheduler -/

theorem schedLock_moves {o : Option (Holder n)} (h : Inv s)
    (hold : ∀ q, s.lock p ≠ some (.proc q)) (hnew : ∀ q, o ≠ some (.proc q)) :
    Moves s (s.setLock p o) p := by
  have hf : Frame s (s.setLock p o) p :=
    (Frame.refl s p).setLock (fun q _ => hold q) fun q _ => hnew q
  have hwait : ∀ q a l, Waiting (s.setLock p o) q a l ↔ Waiting s q a l :=
    fun q a l => ⟨fun hw => ⟨hw.pc, hw.state⟩, fun hw => ⟨hw.pc, hw.state⟩⟩
  refine ⟨hf, h.frame hf ?_ ?_ ?_, fun a l hw => (hwait p a l).mpr hw⟩
  · have hown := h.own p
    refine ⟨hown.keeps, fun hl => absurd (hown.self hl) (hold p), fun r hr => ?_, hown.chan,
      hown.asleep⟩
    have hlock := hown.looks r hr
    have hne : r ≠ p := by
      rintro rfl
      exact hold r hlock
    exact (update_of_ne hne ..).trans hlock
  · exact fun a l hw => .inl ((hwait p a l).mp hw)
  · exact fun q a l k hk hl hq hw => h.scan q p a l k hk hl hq ((hwait q a l).mp hw)

theorem dispatch_moves (h : Inv s) (hpc : s.pc p = .away a l) (hlock : s.lock p = some .sched)
    (hready : (s.proc p).state = .runnable) :
    Moves s (((s.setProc p { s.proc p with state := .running }).setLock p (some (.proc p))).setPc p
      (.clearChan l)) p := by
  have hf : Frame s (((s.setProc p { s.proc p with state := .running }).setLock p
      (some (.proc p))).setPc p (.clearChan l)) p := by
    refine (((Frame.refl s p).setProc _).setLock ?_ ?_).setPc _
    · simp [hlock]
    · simp [eq_comm]
  refine ⟨hf, h.frame hf ?_ (fun b m hw => absurd (by simp) hw.ne_none) (by simp), ?_⟩
  · constructor <;> simp
  intro b m hw
  have hs := hw.state (by simp [hpc])
  rw [hready] at hs
  cases hs

/-! Calls -/

theorem call_moves {pc : SleepPc n Λ} (h : Inv s) (hrun : s.pc p = .run)
    (hkeeps : ∀ l, pc.keeps = some l → s.owner l = some p)
    (hwaits : ∀ a l, pc.waits = some (a, l) → s.owner l = some p)
    (hpassed : ∀ a k, pc.passed = some (a, k) → k = 0) (hself : pc.locksSelf = false)
    (hlooks : pc.looksAt = none) (hchan : pc.chan = none) : Moves s (s.setPc p pc) p := by
  have hawake := (h.own p).awake (by simp [hrun])
  refine ⟨(Frame.refl s p).setPc _, h.frame ((Frame.refl s p).setPc _) ?_ ?_ ?_, ?_⟩
  · refine ⟨fun m hm => ?_, fun hl => ?_, fun q hq => ?_, fun b hb => ?_,
      fun hs => absurd hs hawake⟩
    · rw [setPc_pc] at hm
      exact hkeeps m hm
    · rw [setPc_pc, hself] at hl
      cases hl
    · rw [setPc_pc, hlooks] at hq
      cases hq
    · rw [setPc_pc, hchan] at hb
      cases hb
  · intro a l hw
    have hpc := hw.pc
    rw [setPc_pc] at hpc
    exact .inr (hwaits a l hpc)
  · intro q a l k hk _ hq
    rw [setPc_pc] at hk
    rw [hpassed a k hk] at hq
    exact absurd hq (Nat.not_lt_zero _)
  · exact fun a l hw => absurd (by simp [hrun]) hw.ne_none

theorem init_inv (pid : Fin n → Int) : Inv (init pid : Sleepers n Λ) where
  own := fun p => by constructor <;> simp [init]
  scan := by simp [init]

theorem Moves.waiting {x : Fin n} (h : Moves s t x) (hw : Waiting s p a l) :
    Waiting t p a l ∨ s.woken p < t.woken p := by
  rcases eq_or_ne p x with rfl | hp
  · exact .inl (h.wait a l hw)
  have hpc := h.frame.pc p hp
  by_cases hd : (s.pc p).dozes = true
  · rcases h.frame.stay p hp (hw.state hd) with hs | hlt
    · exact .inl ⟨by rw [hpc]; exact hw.pc, fun _ => hs⟩
    · exact .inr hlt
  · refine .inl ⟨by rw [hpc]; exact hw.pc, fun hd' => ?_⟩
    rw [hpc] at hd'
    exact absurd hd' hd

variable [DecidableEq Λ]

theorem letGo_moves (h : Inv s) (hpc : s.pc p = .letGo a l) :
    Moves s ((s.setOwner l none).setPc p (.setChan a l)) p := by
  have hkeeps := (h.own p).keeps l (by simp [hpc])
  have hself := (h.own p).self (by simp [hpc])
  have hawake := (h.own p).awake (by simp [hpc])
  refine Moves.waits h (((Frame.refl s p).setOwner ?_ ?_).setPc _) ?_ ?_ ?_ ?_
  · simp [hkeeps, eq_comm]
  · simp
  · constructor <;> simp [hself, hawake]
  all_goals simp [hpc]

theorem again_moves (h : Inv s) (hpc : s.pc p = .again l) (hfree : s.owner l = none) :
    Moves s ((s.setOwner l (some p)).setPc p .run) p := by
  have hawake := (h.own p).awake (by simp [hpc])
  refine Moves.plain h (by simp [hpc]) (((Frame.refl s p).setOwner ?_ ?_).setPc _) ?_ ?_ ?_
  · simp [hfree]
  · simp [eq_comm]
  · constructor <;> simp [hawake]
  all_goals simp

theorem owner_moves (h : Inv s) (hrun : s.pc p = .run)
    (hold : ∀ q, q ≠ p → s.owner l ≠ some q) (hnew : ∀ q, q ≠ p → o ≠ some q) :
    Moves s (s.setOwner l o) p := by
  refine Moves.plain h (by simp [hrun]) ((Frame.refl s p).setOwner hold hnew) ?_ ?_ ?_
  · exact (h.own p).of_run hrun hrun rfl
  all_goals simp [hrun]

theorem runStep_moves (h : Inv s) (hstep : s.runStep p (s.pc p) = some t) : Moves s t p := by
  cases hpc : s.pc p <;> rw [hpc] at hstep <;> simp only [runStep, reduceCtorEq] at hstep
  case lockSelf a l =>
    obtain ⟨hfree, hstep⟩ := Option.ite_none_right_eq_some.mp hstep
    cases hstep
    exact lockSelf_moves h hpc hfree
  case letGo a l =>
    cases hstep
    exact letGo_moves h hpc
  case setChan a l =>
    cases hstep
    exact setChan_moves h hpc
  case setState a l =>
    cases hstep
    exact setState_moves h hpc
  case sched a l =>
    cases hstep
    exact sched_moves h hpc
  case clearChan l =>
    cases hstep
    exact clearChan_moves h hpc
  case unlockSelf l =>
    cases hstep
    exact unlockSelf_moves h hpc
  case again l =>
    obtain ⟨hfree, hstep⟩ := Option.ite_none_right_eq_some.mp hstep
    cases hstep
    exact again_moves h hpc hfree
  case wake a k =>
    refine scan_moves h (by simp [hpc]) (by simp [hpc]) (by simp) ?_ hstep
    rintro q b m rfl hm
    rw [hpc]
    exact hm
  case wakeLook a q =>
    cases hstep
    exact wakeLook_moves h hpc
  case wakeNext a q =>
    cases hstep
    exact wakeNext_moves h hpc
  case kill pid k => exact scan_moves h (by simp [hpc]) (by simp [hpc]) (by simp) (by simp) hstep
  case killLook pid q =>
    split at hstep
    · cases hstep
      exact killLook_moves h hpc
    · cases hstep
      exact killMiss_moves h hpc
  case killNext pid q found =>
    cases hstep
    exact killNext_moves h hpc

theorem step_moves {x : SleepAct n Λ} (h : Inv s) (hstep : s.step x = some t) :
    Moves s t x.actor := by
  cases x with
  | acquire p l =>
    obtain ⟨⟨hrun, hfree⟩, hstep⟩ := Option.ite_none_right_eq_some.mp hstep
    cases hstep
    exact owner_moves (p := p) h (isRun_iff.mp hrun) (by simp [hfree]) (by simp [eq_comm])
  | release p l =>
    obtain ⟨⟨hrun, hown⟩, hstep⟩ := Option.ite_none_right_eq_some.mp hstep
    cases hstep
    exact owner_moves (p := p) h (isRun_iff.mp hrun) (by simp [hown, eq_comm]) (by simp)
  | sleep p a l =>
    obtain ⟨⟨hrun, hown⟩, hstep⟩ := Option.ite_none_right_eq_some.mp hstep
    cases hstep
    refine call_moves h (isRun_iff.mp hrun) ?_ ?_ ?_ rfl rfl rfl
    · rintro m ⟨⟩
      exact hown
    · rintro b m ⟨⟩
      exact hown
    · simp
  | wakeup p a =>
    obtain ⟨hrun, hstep⟩ := Option.ite_none_right_eq_some.mp hstep
    cases hstep
    exact call_moves h (isRun_iff.mp hrun) (by simp) (by simp) (by simp) rfl rfl rfl
  | kill p pid =>
    obtain ⟨hrun, hstep⟩ := Option.ite_none_right_eq_some.mp hstep
    cases hstep
    exact call_moves h (isRun_iff.mp hrun) (by simp) (by simp) (by simp) rfl rfl rfl
  | run p => exact runStep_moves h hstep
  | look q =>
    obtain ⟨hfree, hstep⟩ := Option.ite_none_right_eq_some.mp hstep
    cases hstep
    exact schedLock_moves h (by simp [hfree]) (by simp)
  | dispatch q =>
    simp only [step] at hstep
    cases hpc : s.pc q <;> rw [hpc] at hstep <;> simp only [dispatchStep, reduceCtorEq] at hstep
    obtain ⟨⟨hlock, hready⟩, hstep⟩ := Option.ite_none_right_eq_some.mp hstep
    cases hstep
    exact dispatch_moves h hpc hlock hready
  | leave q =>
    obtain ⟨hlock, hstep⟩ := Option.ite_none_right_eq_some.mp hstep
    cases hstep
    exact schedLock_moves h (by simp [hlock]) (by simp)

theorem reaches_inv {pid : Fin n → Int} (h : Reaches step (fun _ _ => True) (init pid) s) :
    Inv s := by
  refine Reaches.invariant (I := Inv) h (init_inv pid) ?_
  intro u v x hu _ hstep
  exact (step_moves hu hstep).inv

/-- A process that waits has been made `RUNNABLE` when a `wakeup` on its channel, by
the owner of its spinlock, has gone through the table. -/
theorem waiting_woken {pid : Fin n → Int} (hs : Reaches step (fun _ _ => True) (init pid) s)
    (hw : Waiting s p a l) (ht : Reaches step (fun _ _ => True) s t)
    (hpc : (t.pc q).passed = some (a, k)) (hk : n ≤ k) (hown : t.owner l = some q) :
    s.woken p < t.woken p := by
  have hrun : Inv t ∧ (Waiting t p a l ∧ s.woken p ≤ t.woken p ∨ s.woken p < t.woken p) := by
    refine Reaches.invariant
      (I := fun u => Inv u ∧ (Waiting u p a l ∧ s.woken p ≤ u.woken p ∨ s.woken p < u.woken p)) ht
      ⟨reaches_inv hs, .inl ⟨hw, le_rfl⟩⟩ ?_
    rintro u v x ⟨hu, hold⟩ _ hstep
    have hmoves := step_moves hu hstep
    have hle := hmoves.frame.woken p
    refine ⟨hmoves.inv, ?_⟩
    rcases hold with ⟨hwait, hsame⟩ | hlt
    · rcases hmoves.waiting hwait with hwait' | hlt
      · exact .inl ⟨hwait', hsame.trans hle⟩
      · exact .inr (hsame.trans_lt hlt)
    · exact .inr (hlt.trans_le hle)
  obtain ⟨hinv, hstill | hlt⟩ := hrun
  · have hscan := hinv.scan p q a l k hpc hown (p.isLt.trans_le hk)
    exact absurd hstill.1 hscan
  · exact hlt

end Steps

end Sleepers

end Xv6.Kernel
