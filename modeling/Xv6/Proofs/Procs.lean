import Xv6.Machine.Procs
import Mathlib.Data.List.Nodup
/-!
# Processes and CPUs: what a step does

The steps of the machine, in groups: the scheduler, `wakeup`, and the threads,
which move on, take or drop a lock, change one entry of the table, or switch
out.
-/

namespace Xv6.Kernel

open Xv6.Lib

variable {n m : Nat}

namespace Proc

/-- `y` is `x`, or `x` after it has been woken up. -/
def Woken (x y : Proc n) : Prop :=
  y = x ∨ x.state = .sleeping ∧ y = { x with state := .runnable }

theorem woken_wakeup (x : Proc n) (a : Nat) : x.Woken (x.wakeup a) := by
  unfold wakeup
  split
  · exact .inr ⟨(‹_ ∧ _›).1, rfl⟩
  · exact .inl rfl

theorem woken_wakeup1 (x : Proc n) (p : Fin n) : x.Woken (x.wakeup1 p) := by
  unfold wakeup1
  split
  · exact .inr ⟨(‹_ ∧ _›).2, rfl⟩
  · exact .inl rfl

theorem woken_kill (x : Proc n) : Woken { x with killed := true } x.kill := by
  unfold kill
  by_cases hx : x.state = .sleeping
  · exact .inr ⟨hx, by rw [if_pos hx]⟩
  · exact .inl (by rw [if_neg hx])

namespace Woken

variable {x y : Proc n} {st : Procstate} (h : x.Woken y)
include h

theorem eq : y = { x with state := y.state } := by
  rcases h with rfl | ⟨_, rfl⟩
  · rfl
  · rfl

theorem parent : y.parent = x.parent := by
  rw [h.eq]

theorem state : y.state = x.state ∨ x.state = .sleeping ∧ y.state = .runnable := by
  rcases h with rfl | ⟨hx, rfl⟩
  · exact .inl rfl
  · exact .inr ⟨hx, rfl⟩

theorem same (hy : y.state = st) (hst : st ≠ .runnable) : y = x := by
  rcases h with he | ⟨_, rfl⟩
  · exact he
  · exact absurd hy.symm hst

theorem state_of (hy : y.state = st) (hst : st ≠ .runnable) : x.state = st := by
  rw [← h.same hy hst]
  exact hy

end Woken

end Proc

structure Books (n : Nat) where
  nextpid : Int
  pids : Nat
  exits : List (Int × Int)
  waits : List (Reap n)

namespace Procs

def books (s : Procs n m) : Books n where
  nextpid := s.nextpid
  pids := s.pids
  exits := s.exits
  waits := s.waits

@[simps -fullyApplied]
def withBooks (s : Procs n m) (b : Books n) : Procs n m :=
  { s with nextpid := b.nextpid, pids := b.pids, exits := b.exits, waits := b.waits }

variable [NeZero n]

inductive Moves (s : Procs n m) (p : Fin n) : ProcPc n → ProcPc n → Prop where
  | fork {r : Int} : Moves s p (.user r) (.forkScan 0)
  | exit {r st : Int} : p ≠ 0 → Moves s p (.user r) (.acquire 0 (.exitWake st))
  | wait {r : Int} {addr : Bool} : Moves s p (.user r) (.acquire p (.waitScan addr 0 false))
  | kill {r pid : Int} : Moves s p (.user r) (.killScan pid 0)
  | sleep {r : Int} {a : Nat} : Moves s p (.user r) (.acquire p (.sleep a))
  | preempt {k : ProcPc n} : k.held p = [] → (s.proc p).state = .running →
      Moves s p k (.acquire p (.yield k))
  | killEnd {pid : Int} {q : Nat} : n ≤ q → Moves s p (.killScan pid q) (.user (-1))
  | killNext {pid : Int} {q : Fin n} :
      Moves s p (.killScan pid q) (.acquire q (.killLook pid q))
  | killMiss {pid : Int} {q : Fin n} : (s.proc q).pid ≠ pid →
      Moves s p (.killLook pid q) (.release q (.killScan pid (q + 1)))
  | forkEnd {q : Nat} : n ≤ q → Moves s p (.forkScan q) (.user (-1))
  | forkNext {q : Fin n} : Moves s p (.forkScan q) (.acquire q (.forkLook q))
  | forkFound {q : Fin n} : (s.proc q).state = .unused → Moves s p (.forkLook q) (.forkPid q)
  | forkUsed {q : Fin n} : (s.proc q).state ≠ .unused →
      Moves s p (.forkLook q) (.release q (.forkScan (q + 1)))
  | trapframe {q : Fin n} : Moves s p (.forkTrapframe q) (.forkPagetable q)
  | noTrapframe {q : Fin n} : Moves s p (.forkTrapframe q) (.release q (.user (-1)))
  | exitParent {st : Int} {op : Fin n} : (s.proc p).parent = some op →
      Moves s p (.exitParent st) (.release p (.acquire op (.acquire p (.reparent st op 0))))
  | reparentEnd {st : Int} {op : Fin n} {q : Nat} : n ≤ q →
      Moves s p (.reparent st op q) (.exitWakeup st op)
  | reparentChild {st : Int} {op q : Fin n} : (s.proc q).parent = some p →
      Moves s p (.reparent st op q) (.acquire q (.give st op q))
  | reparentNext {st : Int} {op q : Fin n} : (s.proc q).parent ≠ some p →
      Moves s p (.reparent st op q) (.reparent st op (q + 1))
  | waitEnd {addr kids : Bool} {q : Nat} : n ≤ q →
      Moves s p (.waitScan addr q kids) (.waitEnd addr kids)
  | waitChild {addr kids : Bool} {q : Fin n} : (s.proc q).parent = some p →
      Moves s p (.waitScan addr q kids) (.acquire q (.waitLook addr q))
  | waitNext {addr kids : Bool} {q : Fin n} : (s.proc q).parent ≠ some p →
      Moves s p (.waitScan addr q kids) (.waitScan addr (q + 1) kids)
  | waitFault {q : Fin n} : (s.proc q).state = .zombie →
      Moves s p (.waitLook true q) (.release q (.release p (.user (-1))))
  | waitAlive {addr : Bool} {q : Fin n} : (s.proc q).state ≠ .zombie →
      Moves s p (.waitLook addr q) (.release q (.waitScan addr (q + 1) true))
  | waitLeave {addr kids : Bool} : kids = false ∨ (s.proc p).killed = true →
      Moves s p (.waitEnd addr kids) (.release p (.user (-1)))

inductive Edits (s : Procs n m) (p : Fin n) :
    ProcPc n → Fin n → Proc n → ProcPc n → Books n → Prop where
  | sleepBack : Edits s p .sleepBack p { s.proc p with chan := none } (.release p (.user 0))
      s.books
  | kill {pid : Int} {q : Fin n} : (s.proc q).pid = pid →
      Edits s p (.killLook pid q) q (s.proc q).kill (.release q (.user 0)) s.books
  | pid {q : Fin n} :
      Edits s p (.forkPid q) q { s.proc q with pid := s.nextpid } (.forkTrapframe q)
        { s.books with nextpid := Int.bmod (s.nextpid + 1) (2 ^ 32), pids := s.pids + 1 }
  | noPagetable {q : Fin n} :
      Edits s p (.forkPagetable q) q .free (.release q (.user (-1))) s.books
  | noMemory {q : Fin n} : Edits s p (.forkCopy q) q .free (.release q (.user (-1))) s.books
  | copied {q : Fin n} :
      Edits s p (.forkCopy q) q { s.proc q with parent := some p } (.forkReady q) s.books
  | ready {q : Fin n} :
      Edits s p (.forkReady q) q { s.proc q with state := .runnable }
        (.release q (.user (s.proc q).pid)) s.books
  | exitWake {st : Int} :
      Edits s p (.exitWake st) 0 ((s.proc 0).wakeup1 0)
        (.release 0 (.acquire p (.exitParent st))) s.books
  | give {st : Int} {op q : Fin n} :
      Edits s p (.give st op q) q { s.proc q with parent := some 0 }
        (.release q (.reparent st op (q + 1))) s.books
  | exitWakeup {st : Int} {op : Fin n} :
      Edits s p (.exitWakeup st op) op ((s.proc op).wakeup1 op) (.exitZombie st op) s.books
  | zombie {st : Int} {op : Fin n} :
      Edits s p (.exitZombie st op) p { s.proc p with xstate := st, state := .zombie }
        (.release op .exitSched)
        { s.books with exits := s.exits ++ [((s.proc p).pid, st)] }
  | reap {addr : Bool} {q : Fin n} : (s.proc q).state = .zombie →
      Edits s p (.waitLook addr q) q .free (.release q (.release p (.user (s.proc q).pid)))
        { s.books with
          waits := s.waits ++
            [⟨p, (s.proc q).pid, addr, if addr = true then some (s.proc q).xstate else none⟩] }
  | waitBack {addr : Bool} :
      Edits s p (.waitBack addr) p { s.proc p with chan := none } (.waitScan addr 0 false) s.books

inductive Switches (s : Procs n m) (p : Fin n) : ProcPc n → Proc n → ProcPc n → Prop where
  | yield {k : ProcPc n} :
      Switches s p (.yield k) { s.proc p with state := .runnable } (.release p k)
  | sleep {a : Nat} :
      Switches s p (.sleep a) { s.proc p with chan := some (.addr a), state := .sleeping }
        .sleepBack
  | exit : Switches s p .exitSched (s.proc p) .dead
  | wait {addr : Bool} :
      Switches s p (.waitEnd addr true)
        { s.proc p with chan := some (.proc p), state := .sleeping } (.waitBack addr)

inductive Steps (s : Procs n m) (c : Fin m) : Procs n m → Prop where
  | wrap {q : Nat} : s.cpu c = .scan q → n ≤ q → Steps s c (s.setCpu c (.scan 0))
  | pick {q : Fin n} : s.cpu c = .scan q → s.lock q = none →
      Steps s c ((s.setLock q (some c)).setCpu c (.look q))
  | skip {q : Fin n} : s.cpu c = .look q → (s.proc q).state ≠ .runnable →
      Steps s c (s.setCpu c (.leave q))
  | dispatch {q : Fin n} : s.cpu c = .look q → (s.proc q).state = .runnable →
      Steps s c (((s.setProc q { s.proc q with state := .running }).setCproc c (some q)).setCpu c
        (.on q))
  | back {q : Fin n} : s.cpu c = .back q → Steps s c ((s.setCproc c none).setCpu c (.leave q))
  | leave {q : Fin n} : s.cpu c = .leave q →
      Steps s c ((s.setLock q none).setCpu c (.scan (q + 1)))
  | waking {w : Option (Nat × Nat)} : Steps s c (s.setWaking c w)
  | visit {q : Fin n} {a : Nat} {w : Option (Nat × Nat)} : s.lock q = none →
      Steps s c ((s.setProc q ((s.proc q).wakeup a)).setWaking c w)
  | move {p : Fin n} {k : ProcPc n} : s.cpu c = .on p → Moves s p (s.pc p) k →
      Steps s c (s.setPc p k)
  | acquire {p q : Fin n} {k : ProcPc n} : s.cpu c = .on p → s.pc p = .acquire q k →
      s.lock q = none → Steps s c ((s.setLock q (some c)).setPc p k)
  | release {p q : Fin n} {k : ProcPc n} : s.cpu c = .on p → s.pc p = .release q k →
      Steps s c ((s.setLock q none).setPc p k)
  | edit {p q : Fin n} {x : Proc n} {k : ProcPc n} {b : Books n} : s.cpu c = .on p →
      Edits s p (s.pc p) q x k b → Steps s c (((s.setProc q x).setPc p k).withBooks b)
  | born {p q : Fin n} : s.cpu c = .on p → s.pc p = .forkPagetable q →
      Steps s c ((s.setPc q (.release q (.user 0))).setPc p (.forkCopy q))
  | switch {p : Fin n} {x : Proc n} {k : ProcPc n} : s.cpu c = .on p →
      Switches s p (s.pc p) x k → Steps s c (s.swtch c p x k)

end Procs

def ProcAct.on {m : Nat} : ProcAct m → Fin m
  | .sched c | .call c _ | .run c _ | .preempt c | .wakeup c _ | .visit c => c

namespace Procs

variable {s t : Procs n m} {c : Fin m} {p : Fin n} {f : ProcCall} {r : Int} {a : ProcAct m}

theorem cpu_of_thread (h : s.thread c = some p) : s.cpu c = .on p := by
  unfold thread at h
  split at h
  · split at h
    · rename_i q hq
      cases h
      exact hq
    · cases h
  · cases h

variable [NeZero n] {k₀ k : ProcPc n}

private theorem steps_sched (h : s.schedStep c (s.cpu c) = some t) : Steps s c t := by
  cases hc : s.cpu c with
  | scan q =>
    rw [hc] at h
    simp only [schedStep] at h
    split at h
    · rename_i hq
      obtain ⟨hl, rfl⟩ := Option.ite_none_right_eq_some.mp h |>.imp_right Option.some.inj
      exact .pick (q := ⟨q, hq⟩) hc hl
    · cases h
      exact .wrap hc (by omega)
  | look q =>
    rw [hc] at h
    simp only [schedStep] at h
    split at h
    · cases h
      exact .dispatch hc ‹_›
    · cases h
      exact .skip hc ‹_›
  | on q =>
    rw [hc] at h
    cases h
  | back q =>
    rw [hc] at h
    cases h
    exact .back hc
  | leave q =>
    rw [hc] at h
    cases h
    exact .leave hc

private theorem moves_call (h : entry p f = some k) : Moves s p (.user r) k := by
  cases f with
  | fork => cases h; exact .fork
  | exit st =>
    change (if p = 0 then none else some _) = some k at h
    split at h
    · cases h
    · cases h
      exact .exit ‹_›
  | wait addr => cases h; exact .wait
  | kill pid => cases h; exact .kill
  | sleep a => cases h; exact .sleep

section

variable (hon : s.cpu c = .on p) {q : Nat} {done : ProcPc n} {each : Fin n → ProcPc n}
  {x : Proc n} {ok : Bool}
include hon

private theorem steps_scan (hdone : n ≤ q → Moves s p (s.pc p) done)
    (heach : ∀ h : q < n, Moves s p (s.pc p) (each ⟨q, h⟩)) :
    Steps s c (s.scanStep p q each done) := by
  unfold scanStep
  split
  · exact .move hon (heach ‹_›)
  · exact .move hon (hdone (by omega))

private theorem steps_move (hp : s.pc p = k₀)
    (hm : Moves s p k₀ k) (h : some (s.setPc p k) = some t) : Steps s c t := by
  cases h
  exact .move hon (hp ▸ hm)

private theorem steps_edit {q : Fin n} {b : Books n} (hp : s.pc p = k₀)
    (he : Edits s p k₀ q x k b)
    (h : some (((s.setProc q x).setPc p k).withBooks b) = some t) : Steps s c t := by
  cases h
  exact .edit hon (hp ▸ he)

private theorem steps_switch
    (hp : s.pc p = k₀) (hk : Switches s p k₀ x k) (h : some (s.swtch c p x k) = some t) :
    Steps s c t := by
  cases h
  exact .switch hon (hp ▸ hk)

private theorem steps_thread
    (hp : s.pc p = k) (h : s.threadStep c p ok k = some t) : Steps s c t := by
  cases k with
  | user | dead => cases h
  | acquire q k =>
    simp only [threadStep, Option.ite_none_right_eq_some, Option.some.injEq] at h
    obtain ⟨hl, rfl⟩ := h
    exact .acquire hon hp hl
  | release q k =>
    cases h
    exact .release hon hp
  | yield k => exact steps_switch hon hp .yield h
  | sleep a => exact steps_switch hon hp .sleep h
  | sleepBack => exact steps_edit hon hp .sleepBack h
  | killScan pid q =>
    cases h
    refine steps_scan hon (fun hq => ?_) fun hq => ?_
    · rw [hp]
      exact .killEnd hq
    · rw [hp]
      exact .killNext (q := ⟨q, hq⟩)
  | killLook pid q =>
    simp only [threadStep] at h
    split at h
    · exact steps_edit hon hp (.kill ‹_›) h
    · exact steps_move hon hp (.killMiss ‹_›) h
  | forkScan q =>
    cases h
    refine steps_scan hon (fun hq => ?_) fun hq => ?_
    · rw [hp]
      exact .forkEnd hq
    · rw [hp]
      exact .forkNext (q := ⟨q, hq⟩)
  | forkLook q =>
    simp only [threadStep] at h
    split at h
    · exact steps_move hon hp (.forkFound ‹_›) h
    · exact steps_move hon hp (.forkUsed ‹_›) h
  | forkPid q => exact steps_edit hon hp .pid h
  | forkTrapframe q =>
    simp only [threadStep] at h
    split at h
    · exact steps_move hon hp .trapframe h
    · exact steps_move hon hp .noTrapframe h
  | forkPagetable q =>
    simp only [threadStep] at h
    split at h
    · cases h
      exact .born hon hp
    · exact steps_edit hon hp .noPagetable h
  | forkCopy q =>
    simp only [threadStep] at h
    split at h
    · exact steps_edit hon hp .copied h
    · exact steps_edit hon hp .noMemory h
  | forkReady q => exact steps_edit hon hp .ready h
  | exitWake st => exact steps_edit hon hp .exitWake h
  | exitParent st =>
    simp only [threadStep] at h
    split at h
    · cases h
    · exact steps_move hon hp (.exitParent ‹_›) h
  | reparent st op q =>
    cases h
    refine steps_scan hon (fun hq => ?_) fun hq => ?_
    · rw [hp]
      exact .reparentEnd hq
    rw [hp]
    split
    · exact .reparentChild (q := ⟨q, hq⟩) ‹_›
    · exact .reparentNext (q := ⟨q, hq⟩) ‹_›
  | give st op q => exact steps_edit hon hp .give h
  | exitWakeup st op => exact steps_edit hon hp .exitWakeup h
  | exitZombie st op => exact steps_edit hon hp .zombie h
  | exitSched => exact steps_switch hon hp .exit h
  | waitScan addr q kids =>
    cases h
    refine steps_scan hon (fun hq => ?_) fun hq => ?_
    · rw [hp]
      exact .waitEnd hq
    rw [hp]
    split
    · exact .waitChild (q := ⟨q, hq⟩) ‹_›
    · exact .waitNext (q := ⟨q, hq⟩) ‹_›
  | waitLook addr q =>
    simp only [threadStep] at h
    split at h
    · split at h
      · rename_i hz hf
        obtain ⟨rfl, _⟩ := hf
        exact steps_move hon hp (.waitFault hz) h
      · exact steps_edit hon hp (.reap ‹_›) h
    · exact steps_move hon hp (.waitAlive ‹_›) h
  | waitEnd addr kids =>
    simp only [threadStep] at h
    split at h
    · exact steps_move hon hp (.waitLeave ‹_›) h
    rename_i hk
    have hkids : kids = true := by
      cases kids with
      | true => rfl
      | false => exact absurd (.inl rfl) hk
    subst hkids
    exact steps_switch hon hp .wait h
  | waitBack addr => exact steps_edit hon hp .waitBack h

end

theorem steps_of_step (h : s.step a = some t) : Steps s a.on t := by
  cases a with
  | sched c => exact steps_sched (Option.ite_none_right_eq_some.mp h).2
  | call c f =>
    obtain ⟨p, hp, h⟩ := Option.bind_eq_some_iff.mp h
    cases hpc : s.pc p with
    | user r =>
      rw [hpc] at h
      obtain ⟨k, hk, rfl⟩ := Option.map_eq_some_iff.mp h
      exact .move (cpu_of_thread hp) (hpc ▸ moves_call hk)
    | _ =>
      rw [hpc] at h
      cases h
  | run c ok =>
    obtain ⟨p, hp, h⟩ := Option.bind_eq_some_iff.mp h
    exact steps_thread (cpu_of_thread hp) rfl h
  | preempt c =>
    obtain ⟨p, hp, h⟩ := Option.bind_eq_some_iff.mp h
    obtain ⟨⟨hk, hs⟩, h⟩ := Option.ite_none_right_eq_some.mp h
    cases h
    exact .move (cpu_of_thread hp) (.preempt hk hs)
  | wakeup c a =>
    obtain ⟨_, h⟩ := Option.ite_none_right_eq_some.mp h
    cases h
    exact .waking
  | visit c =>
    change s.visitStep c (s.waking c) = some t at h
    unfold visitStep at h
    split at h
    · cases h
    split at h
    · rename_i a q _ hq
      obtain ⟨hl, h⟩ := Option.ite_none_right_eq_some.mp h
      cases h
      exact .visit (q := ⟨q, hq⟩) hl
    · cases h
      exact .waking

end Procs

end Xv6.Kernel
