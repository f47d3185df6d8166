import Xv6.Lib.Ring
import Xv6.Machine.Pipes
import Mathlib.Data.List.TakeDrop
import Mathlib.Tactic.Ring
/-!
# Processes that share a pipe: what a step does

The steps of the machine, one constructor for each, and who holds which lock.
-/

namespace Xv6.Kernel

open Xv6.Lib Function

namespace PipePc

def holds : PipePc → Bool
  | .head _ | .copy _ _ _ | .wake _ _ _ _ | .sleep _ _ | .letGo _ _ | .leave _ _ => true
  | _ => false

def holdsSelf : PipePc → Bool
  | .letGo _ _ | .doze _ _ | .sched _ _ | .woken _ => true
  | _ => false

def bed : PipePc → Option PipeChan
  | .sched ch _ | .asleep ch _ => some ch
  | _ => none

end PipePc

namespace Pipes

variable {n : Nat} {s t : Pipes n} {p : Fin n}

section Fields

variable (s : Pipes n) (p : Fin n) (c : PipeCall)

@[simp] theorem register_pipe : (s.register p c).pipe = s.pipe := by cases c <;> rfl
@[simp] theorem register_lock : (s.register p c).lock = s.lock := by cases c <;> rfl
@[simp] theorem register_proc : (s.register p c).proc = s.proc := by cases c <;> rfl
@[simp] theorem register_pc : (s.register p c).pc = s.pc := by cases c <;> rfl
@[simp] theorem register_sent : (s.register p c).sent = s.sent := by cases c <;> rfl
@[simp] theorem register_recv : (s.register p c).recv = s.recv := by cases c <;> rfl

@[simp] theorem leaveStep_pipe : (s.leaveStep p c).pipe = s.pipe := by cases c <;> rfl
@[simp] theorem leaveStep_lock : (s.leaveStep p c).lock = none := by cases c <;> rfl
@[simp] theorem leaveStep_proc : (s.leaveStep p c).proc = s.proc := by cases c <;> rfl
@[simp] theorem leaveStep_pc : (s.leaveStep p c).pc = Function.update s.pc p .idle := by
  cases c <;> rfl
@[simp] theorem leaveStep_calls : (s.leaveStep p c).calls = s.calls := by cases c <;> rfl
@[simp] theorem leaveStep_id : (s.leaveStep p c).id = s.id := by cases c <;> rfl
@[simp] theorem leaveStep_sent : (s.leaveStep p c).sent = s.sent := by cases c <;> rfl
@[simp] theorem leaveStep_recv : (s.leaveStep p c).recv = s.recv := by cases c <;> rfl

end Fields

inductive Steps (s : Pipes n) : PipeAct n → Pipes n → Prop where
  | call {p : Fin n} {c : PipeCall} : s.pc p = .idle → Starts c →
      Steps s (.call p c) (s.setPc p (.enter c))
  | enter {p : Fin n} {c : PipeCall} : s.pc p = .enter c → s.lock = none →
      Steps s (.run p) (((s.withLock (some p)).register p c).setPc p (.head c))
  | writeLeave {p : Fin n} {m : Int} {src : Nat → Option UInt8} {i unseen : Nat} :
      s.pc p = .head (.write m src i unseen) → (i : Int) < m → s.pipe.isFull = true →
      s.pipe.readopen = false ∨ (s.proc p).killed = true →
      Steps s (.run p) (s.setPc p (.leave (.write m src i unseen) (-1)))
  | writeFull {p : Fin n} {m : Int} {src : Nat → Option UInt8} {i unseen : Nat} :
      s.pc p = .head (.write m src i unseen) → (i : Int) < m → s.pipe.isFull = true →
      s.pipe.readopen = true →
      Steps s (.run p) (s.setPc p (.wake .nread 0 (.write m src i unseen) (.sleep .nwrite)))
  | writeEnd {p : Fin n} {m : Int} {src : Nat → Option UInt8} {i unseen : Nat} :
      s.pc p = .head (.write m src i unseen) → (i : Int) < m ∧ src i = none ∨ ¬(i : Int) < m →
      Steps s (.run p) (s.setPc p (.wake .nread 0 (.write m src i unseen) (.leave i)))
  | append {p : Fin n} {m : Int} {src : Nat → Option UInt8} {i unseen : Nat} {ch : UInt8} :
      s.pc p = .head (.write m src i unseen) → (i : Int) < m → s.pipe.isFull = false →
      src i = some ch →
      Steps s (.run p) ((s.append p ch).setPc p (.head (.write m src (i + 1) (unseen + 1))))
  | readLeave {p : Fin n} {m : Int} {dst : Nat → Bool} {i : Nat} :
      s.pc p = .head (.read m dst i) → Steps s (.run p) (s.setPc p (.leave (.read m dst i) (-1)))
  | readSleep {p : Fin n} {m : Int} {dst : Nat → Bool} {i : Nat} :
      s.pc p = .head (.read m dst i) → s.pipe.isEmpty = true → s.pipe.writeopen = true →
      Steps s (.run p) (s.setPc p (.sleep .nread (.read m dst i)))
  | readGo {p : Fin n} {m : Int} {dst : Nat → Bool} {i : Nat} :
      s.pc p = .head (.read m dst i) → ¬(s.pipe.isEmpty = true ∧ s.pipe.writeopen = true) →
      Steps s (.run p) (s.setPc p (.copy m dst i))
  | remove {p : Fin n} {m : Int} {dst : Nat → Bool} {i : Nat} :
      s.pc p = .copy m dst i → (i : Int) < m → s.pipe.isEmpty = false → dst i = true →
      Steps s (.run p) (s.remove.setPc p (.copy m dst (i + 1)))
  | removeFault {p : Fin n} {m : Int} {dst : Nat → Bool} {i : Nat} :
      s.pc p = .copy m dst i → (i : Int) < m → s.pipe.isEmpty = false → dst i = false →
      Steps s (.run p) (s.remove.setPc p (.wake .nwrite 0 (.read m dst i) (.leave i)))
  | readEnd {p : Fin n} {m : Int} {dst : Nat → Bool} {i : Nat} :
      s.pc p = .copy m dst i → ¬((i : Int) < m ∧ s.pipe.isEmpty = false) →
      Steps s (.run p) (s.setPc p (.wake .nwrite 0 (.read m dst i) (.leave i)))
  | close {p : Fin n} {w : Bool} : s.pc p = .head (.close w) →
      Steps s (.run p) ({ s with pipe := s.pipe.closed w }.setPc p
        (.wake (closeChan w) 0 (.close w) (.leave 0)))
  | wakeOne {p : Fin n} {ch : PipeChan} {q : Fin n} {c : PipeCall} {k : PipeNext} :
      s.pc p = .wake ch q.val c k → (s.proc q).locked = false →
      Steps s (.run p) ((s.setProc q ((s.proc q).wake ch)).setPc p (.wake ch (q.val + 1) c k))
  | wakeSleep {p : Fin n} {ch ch' : PipeChan} {q : Nat} {c : PipeCall} :
      s.pc p = .wake ch q c (.sleep ch') → n ≤ q →
      Steps s (.run p) (s.setPc p (.sleep ch' c.announced))
  | wakeLeave {p : Fin n} {ch : PipeChan} {q : Nat} {c : PipeCall} {r : Int} :
      s.pc p = .wake ch q c (.leave r) → n ≤ q → Steps s (.run p) (s.setPc p (.leave c r))
  | sleep {p : Fin n} {ch : PipeChan} {c : PipeCall} : s.pc p = .sleep ch c →
      (s.proc p).locked = false →
      Steps s (.run p) ((s.setProc p { s.proc p with locked := true }).setPc p (.letGo ch c))
  | letGo {p : Fin n} {ch : PipeChan} {c : PipeCall} : s.pc p = .letGo ch c →
      Steps s (.run p) ((s.withLock none).setPc p (.doze ch c))
  | doze {p : Fin n} {ch : PipeChan} {c : PipeCall} : s.pc p = .doze ch c →
      Steps s (.run p) ((s.setProc p { s.proc p with chan := some ch, state := .sleeping }).setPc p
        (.sched ch c))
  | sched {p : Fin n} {ch : PipeChan} {c : PipeCall} : s.pc p = .sched ch c →
      Steps s (.run p) ((s.setProc p { s.proc p with locked := false }).setPc p (.asleep ch c))
  | resume {p : Fin n} {ch : PipeChan} {c : PipeCall} : s.pc p = .asleep ch c →
      (s.proc p).locked = false → (s.proc p).state = .runnable →
      Steps s (.run p)
        ((s.setProc p { s.proc p with locked := true, state := .running }).setPc p (.woken c))
  | woken {p : Fin n} {c : PipeCall} : s.pc p = .woken c →
      Steps s (.run p)
        ((s.setProc p { s.proc p with chan := none, locked := false }).setPc p (.again c))
  | again {p : Fin n} {c : PipeCall} : s.pc p = .again c → s.lock = none →
      Steps s (.run p) ((s.withLock (some p)).setPc p (.head c))
  | leave {p : Fin n} {c : PipeCall} {r : Int} : s.pc p = .leave c r →
      Steps s (.run p) (s.leaveStep p c)
  | kill {q : Fin n} : (s.proc q).locked = false → Steps s (.kill q) (s.setProc q (s.proc q).kill)

section Inversion

variable {q i unseen : Nat} {m : Int} {src : Nat → Option UInt8} {dst : Nat → Bool}
  {ch : PipeChan} {c : PipeCall} {k : PipeNext}

private theorem steps_write (hp : s.pc p = .head (.write m src i unseen)) :
    Steps s (.run p) (s.writeRound p m src i unseen) := by
  unfold writeRound
  split
  · rename_i hi
    split
    · rename_i hfull
      split
      · rename_i hk
        exact .writeLeave hp hi hfull hk
      rename_i hk
      have hopen : s.pipe.readopen = true := by
        cases h : s.pipe.readopen with
        | true => rfl
        | false => exact absurd (.inl h) hk
      exact .writeFull hp hi hfull hopen
    · rename_i hfull
      cases hsrc : src i with
      | none => exact .writeEnd hp (.inl ⟨hi, hsrc⟩)
      | some ch => exact .append hp hi (by simpa using hfull) hsrc
  · rename_i hi
    exact .writeEnd hp (.inr hi)

private theorem steps_readTest
    (hp : s.pc p = .head (.read m dst i)) : Steps s (.run p) (s.readTest p m dst i) := by
  unfold readTest
  split
  · rename_i hw
    split
    · exact .readLeave hp
    · exact .readSleep hp hw.1 hw.2
  · rename_i hw
    exact .readGo hp hw

private theorem steps_readRound
    (hp : s.pc p = .copy m dst i) : Steps s (.run p) (s.readRound p m dst i) := by
  unfold readRound
  split
  · rename_i hi
    split
    · rename_i hd
      exact .remove hp hi.1 hi.2 hd
    · rename_i hd
      exact .removeFault hp hi.1 hi.2 (by simpa using hd)
  · rename_i hi
    exact .readEnd hp hi

private theorem steps_wake
    (hp : s.pc p = .wake ch q c k) (h : s.wakeStep p ch q c k = some t) : Steps s (.run p) t := by
  unfold wakeStep at h
  split at h
  · rename_i hq
    split at h
    · rename_i hl
      cases h
      exact .wakeOne (q := ⟨q, hq⟩) hp hl
    · cases h
  rename_i hq
  cases k with
  | sleep ch' =>
    cases h
    exact .wakeSleep hp (Nat.le_of_not_lt hq)
  | leave r =>
    cases h
    exact .wakeLeave hp (Nat.le_of_not_lt hq)

private theorem steps_run {pc : PipePc} (hp : s.pc p = pc) (h : s.runStep p pc = some t) :
    Steps s (.run p) t := by
  cases pc with
  | idle => cases h
  | enter c =>
    simp only [runStep, Option.ite_none_right_eq_some, Option.some.injEq] at h
    obtain ⟨hl, rfl⟩ := h
    exact .enter hp hl
  | head c =>
    cases h
    cases c with
    | write m src i unseen => exact steps_write hp
    | read m dst i => exact steps_readTest hp
    | close w => exact .close hp
  | copy m dst i =>
    cases h
    exact steps_readRound hp
  | wake ch q c k => exact steps_wake hp h
  | sleep ch c =>
    simp only [runStep, Option.ite_none_right_eq_some, Option.some.injEq] at h
    obtain ⟨hl, rfl⟩ := h
    exact .sleep hp hl
  | letGo ch c => cases h; exact .letGo hp
  | doze ch c => cases h; exact .doze hp
  | sched ch c => cases h; exact .sched hp
  | asleep ch c =>
    simp only [runStep, Option.ite_none_right_eq_some, Option.some.injEq] at h
    obtain ⟨hl, rfl⟩ := h
    exact .resume hp hl.1 hl.2
  | woken c => cases h; exact .woken hp
  | again c =>
    simp only [runStep, Option.ite_none_right_eq_some, Option.some.injEq] at h
    obtain ⟨hl, rfl⟩ := h
    exact .again hp hl
  | leave c r => cases h; exact .leave hp

theorem steps_of_step {a : PipeAct n} (h : s.step a = some t) : Steps s a t := by
  cases a with
  | call p c =>
    simp only [step, Option.ite_none_right_eq_some, Option.some.injEq] at h
    obtain ⟨⟨hidle, _, hc⟩, rfl⟩ := h
    refine .call ?_ hc
    cases hp : s.pc p <;> simp [hp, isIdle] at hidle ⊢
  | run p =>
    simp only [step, Option.ite_none_right_eq_some] at h
    exact steps_run rfl h.2
  | kill q =>
    simp only [step, Option.ite_none_right_eq_some, Option.some.injEq] at h
    obtain ⟨hl, rfl⟩ := h
    exact .kill hl

end Inversion

/-! ## Locks -/

structure Sync (s : Pipes n) : Prop where
  lock : ∀ p, s.lock = some p ↔ (s.pc p).holds = true
  self : ∀ p, (s.proc p).locked = (s.pc p).holdsSelf
  state : ∀ p, (s.proc p).state = .sleeping → (s.pc p).bed ≠ none
  chan : ∀ p ch, (s.pc p).bed = some ch → (s.proc p).chan = some ch

namespace Sync

variable {q : Fin n} {pc pc0 : PipePc} {x : Sleeper}

theorem init (page : Bytes PIPESIZE) : Sync (Pipes.init page : Pipes n) where
  lock := by simp [Pipes.init, PipePc.holds]
  self := fun _ => rfl
  state := by simp [Pipes.init, Sleeper.initial]
  chan := by simp [Pipes.init, PipePc.bed]

section

variable (h : Sync s) {a : PipeAct n}
include h

/-- A process moves on and changes its own entry, with the same hold on
`pi->lock`. -/
theorem update (hp : s.pc p = pc0) (hh : pc.holds = pc0.holds)
    (hself : x.locked = pc.holdsSelf) (hst : x.state = .sleeping → pc.bed ≠ none)
    (hch : ∀ ch, pc.bed = some ch → x.chan = some ch) : Sync ((s.setProc p x).setPc p pc) where
  lock := by
    intro q
    rcases eq_or_ne q p with rfl | hq
    · simp only [setPc_lock, setProc_lock, setPc_pc, update_self]
      rw [hh, ← hp]
      exact h.lock q
    · simp only [setPc_lock, setProc_lock, setPc_pc, setProc_pc, update_of_ne hq]
      exact h.lock q
  self := by
    intro q
    rcases eq_or_ne q p with rfl | hq
    · simpa using hself
    · simpa [update_of_ne hq] using h.self q
  state := by
    intro q
    rcases eq_or_ne q p with rfl | hq
    · simpa using hst
    · simpa [update_of_ne hq] using h.state q
  chan := by
    intro q
    rcases eq_or_ne q p with rfl | hq
    · simpa using hch
    · simpa [update_of_ne hq] using h.chan q

theorem move (hp : s.pc p = pc0) (hh : pc.holds = pc0.holds)
    (hself : pc.holdsSelf = pc0.holdsSelf) (hb : pc.bed = pc0.bed) : Sync (s.setPc p pc) := by
  have hu := h.update (x := s.proc p) hp hh (by rw [hself, ← hp]; exact h.self p)
    (by rw [hb, ← hp]; exact h.state p) (by rw [hb, ← hp]; exact h.chan p)
  have he : s.setProc p (s.proc p) = s := by
    unfold setProc
    rw [update_eq_self]
  rwa [he] at hu

theorem touch (hl : x.locked = (s.proc q).locked) (hc : x.chan = (s.proc q).chan)
    (hst : x.state = .sleeping → (s.proc q).state = .sleeping) : Sync (s.setProc q x) where
  lock := h.lock
  self := by
    intro p
    rcases eq_or_ne p q with rfl | hp
    · simpa [hl] using h.self p
    · simpa [update_of_ne hp] using h.self p
  state := by
    intro p
    rcases eq_or_ne p q with rfl | hp
    · simpa using fun hx => h.state p (hst hx)
    · simpa [update_of_ne hp] using h.state p
  chan := by
    intro p
    rcases eq_or_ne p q with rfl | hp
    · simpa [hc] using h.chan p
    · simpa [update_of_ne hp] using h.chan p

theorem wake (q : Fin n) (ch : PipeChan) : Sync (s.setProc q ((s.proc q).wake ch)) := by
  apply h.touch
  · unfold Sleeper.wake
    split <;> rfl
  · unfold Sleeper.wake
    split <;> rfl
  · unfold Sleeper.wake
    split <;> simp

theorem kill (q : Fin n) : Sync (s.setProc q (s.proc q).kill) := by
  apply h.touch
  · rfl
  · rfl
  unfold Sleeper.kill
  split <;> simp

theorem relock {l : Option (Fin n)} (hp : s.pc p = pc0) (hme : l = some p ↔ pc.holds = true)
    (hother : ∀ q, q ≠ p → (l = some q ↔ (s.pc q).holds = true))
    (hself : pc.holdsSelf = pc0.holdsSelf) (hb : pc.bed = pc0.bed) :
    Sync ((s.withLock l).setPc p pc) where
  lock := by
    intro q
    rcases eq_or_ne q p with rfl | hq
    · simpa using hme
    · simpa [update_of_ne hq] using hother q hq
  self := by
    intro q
    rcases eq_or_ne q p with rfl | hq
    · simpa [hself, hp] using h.self q
    · simpa [update_of_ne hq] using h.self q
  state := by
    intro q
    rcases eq_or_ne q p with rfl | hq
    · simpa [hb, hp] using h.state q
    · simpa [update_of_ne hq] using h.state q
  chan := by
    intro q
    rcases eq_or_ne q p with rfl | hq
    · simpa [hb, hp] using h.chan q
    · simpa [update_of_ne hq] using h.chan q

theorem acquire (hp : s.pc p = pc0) (hfree : s.lock = none) (hh : pc.holds = true)
    (hself : pc.holdsSelf = pc0.holdsSelf) (hb : pc.bed = pc0.bed) :
    Sync ((s.withLock (some p)).setPc p pc) := by
  refine h.relock hp (by simp [hh]) (fun q hq => ?_) hself hb
  have hn := h.lock q
  rw [hfree] at hn
  simpa [Ne.symm hq] using hn

theorem release (hp : s.pc p = pc0) (hheld : pc0.holds = true)
    (hh : pc.holds = false) (hself : pc.holdsSelf = pc0.holdsSelf) (hb : pc.bed = pc0.bed) :
    Sync ((s.withLock none).setPc p pc) := by
  have hlock := (h.lock p).mpr (by rw [hp]; exact hheld)
  refine h.relock hp (by simp [hh]) (fun q hq => ?_) hself hb
  have hn := h.lock q
  rw [hlock] at hn
  simpa [Ne.symm hq] using hn

theorem congr (hl : t.lock = s.lock) (hpc : t.pc = s.pc) (hp : t.proc = s.proc) : Sync t where
  lock := by rw [hl, hpc]; exact h.lock
  self := by rw [hp, hpc]; exact h.self
  state := by rw [hp, hpc]; exact h.state
  chan := by rw [hp, hpc]; exact h.chan

theorem step (hst : Steps s a t) : Sync t := by
  cases hst with
  | call hp => exact h.move hp rfl rfl rfl
  | @enter p c hp hl =>
    have hacq : Sync ((s.withLock (some p)).setPc p (.head c)) := h.acquire hp hl rfl rfl rfl
    apply hacq.congr <;> simp
  | writeLeave hp => exact h.move hp rfl rfl rfl
  | writeFull hp => exact h.move hp rfl rfl rfl
  | writeEnd hp => exact h.move hp rfl rfl rfl
  | append hp => exact (h.congr (t := s.append _ _) rfl rfl rfl).move hp rfl rfl rfl
  | readLeave hp => exact h.move hp rfl rfl rfl
  | readSleep hp => exact h.move hp rfl rfl rfl
  | readGo hp => exact h.move hp rfl rfl rfl
  | remove hp => exact (h.congr (t := s.remove) rfl rfl rfl).move hp rfl rfl rfl
  | removeFault hp => exact (h.congr (t := s.remove) rfl rfl rfl).move hp rfl rfl rfl
  | readEnd hp => exact h.move hp rfl rfl rfl
  | close hp =>
    exact (h.congr (t := { s with pipe := s.pipe.closed _ }) rfl rfl rfl).move hp rfl rfl rfl
  | wakeOne hp hl => exact (h.wake _ _).move hp rfl rfl rfl
  | wakeSleep hp => exact h.move hp rfl rfl rfl
  | wakeLeave hp => exact h.move hp rfl rfl rfl
  | sleep hp hl =>
    refine h.update hp rfl rfl ?_ (by simp [PipePc.bed])
    intro hs
    have hbed := h.state _ hs
    rw [hp] at hbed
    exact hbed
  | letGo hp => exact h.release hp rfl rfl rfl rfl
  | @doze p ch c hp =>
    have hself := h.self p
    rw [hp] at hself
    exact h.update hp rfl hself (by simp [PipePc.bed]) (by simp [PipePc.bed])
  | sched hp =>
    refine h.update hp rfl rfl (by simp [PipePc.bed]) ?_
    intro ch hch
    exact h.chan _ ch (by rw [hp]; exact hch)
  | resume hp => exact h.update hp rfl rfl (by simp) (by simp [PipePc.bed])
  | woken hp =>
    refine h.update hp rfl rfl ?_ (by simp [PipePc.bed])
    intro hs
    have hbed := h.state _ hs
    rw [hp] at hbed
    exact hbed
  | again hp hl => exact h.acquire hp hl rfl rfl rfl
  | @leave p c r hp =>
    have hrel : Sync ((s.withLock none).setPc p .idle) := h.release hp rfl rfl rfl rfl
    apply hrel.congr <;> simp
  | kill hl => exact h.kill _

theorem frame (hst : Steps s a t) (hp : (s.pc p).holds = true)
    (hrun : a ≠ .run p) : t.pipe = s.pipe ∧ t.pc p = s.pc p := by
  have hother : ∀ q, a = .run q → (s.pc q).holds = true → False := by
    intro q hq hh
    have hlq := (h.lock q).mpr hh
    rw [(h.lock p).mpr hp] at hlq
    exact hrun (by rw [hq, Option.some.inj hlq])
  cases hst with
  | @call q c hq =>
    have hne : p ≠ q := by
      intro he
      rw [he, hq] at hp
      cases hp
    exact ⟨rfl, update_of_ne hne ..⟩
  | kill => exact ⟨rfl, rfl⟩
  | append hq => exact (hother _ rfl (by rw [hq]; rfl)).elim
  | remove hq => exact (hother _ rfl (by rw [hq]; rfl)).elim
  | removeFault hq => exact (hother _ rfl (by rw [hq]; rfl)).elim
  | close hq => exact (hother _ rfl (by rw [hq]; rfl)).elim
  | _ =>
    refine ⟨by simp, ?_⟩
    simp only [setPc_pc, setProc_pc, withLock_pc, register_pc, leaveStep_pc]
    apply update_of_ne
    intro he
    exact hrun (by rw [he])

end

end Sync

end Pipes

end Xv6.Kernel
