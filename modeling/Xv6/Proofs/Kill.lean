import Xv6.Proofs.Family
/-!
# `kill`

`kill` compares its argument with the `pid` of every entry, used or not.  An
unused entry has pid 0, or the pid that a `fork` without memory left there; when
`kill` finds it, the next process in that entry starts out killed.
-/

namespace Xv6.Kernel

open Xv6.Lib Function

variable {n : Nat}

section Loop

variable (proc : Fin n → Proc n) (pid : Int) {l : List (Fin n)}

theorem killLoop_of_mem (h : ∃ q ∈ l, (proc q).pid = pid) : ∃ q ∈ l, (proc q).pid = pid ∧
      killLoop proc pid l = (0, update proc q (proc q).kill) := by
  induction l with
  | nil =>
    obtain ⟨q, hq, _⟩ := h
    cases hq
  | cons q rest ih =>
    by_cases hq : (proc q).pid = pid
    · exact ⟨q, List.mem_cons_self, hq, if_pos hq⟩
    obtain ⟨q', hmem, hpid⟩ := h
    rcases List.mem_cons.mp hmem with rfl | hmem
    · exact absurd hpid hq
    · obtain ⟨q1, hmem1, hpid1, he⟩ := ih ⟨q', hmem, hpid⟩
      exact ⟨q1, List.mem_cons_of_mem _ hmem1, hpid1, (if_neg hq).trans he⟩

theorem killLoop_of_not_mem (h : ∀ q ∈ l, (proc q).pid ≠ pid) :
    killLoop proc pid l = (-1, proc) := by
  induction l with
  | nil => rfl
  | cons q rest ih =>
    exact (if_neg (h q List.mem_cons_self)).trans
      (ih fun q' hq' => h q' (List.mem_cons_of_mem _ hq'))

end Loop

namespace ProcPc

def killing {n : Nat} : ProcPc n → Option (Int × Fin n)
  | .killLook pid q => some (pid, q)
  | _ => none

end ProcPc

namespace Procs

variable {m : Nat} [NeZero n] {s t : Procs n m} {c : Fin m} {p q : Fin n} {x : Proc n}

def victim (s : Procs n m) (c : Fin m) : Option (Fin n) :=
  match s.cpu c with
  | .on p => ((s.pc p).killing.filter fun w => (s.proc w.2).pid = w.1).map Prod.snd
  | _ => none

/-- No `kill` finds its pid in an unused entry. -/
def KillsUsed (s : Procs n m) (a : ProcAct m) : Prop :=
  ∀ q ∈ s.victim a.on, (s.proc q).state ≠ .unused

instance (s : Procs n m) (a : ProcAct m) : Decidable (KillsUsed s a) :=
  inferInstanceAs (Decidable (∀ q ∈ s.victim a.on, (s.proc q).state ≠ .unused))

def Unmarked (s : Procs n m) : Prop :=
  ∀ q, (s.proc q).state = .unused → (s.proc q).killed = false

theorem Touched.killed (h : Touched s c q x) :
    x.killed = (s.proc q).killed ∨ x = .free ∨ s.victim c = some q := by
  cases h with
  | woken hw => exact .inl (by rw [hw.eq])
  | run => exact .inl rfl
  | @edit p _ k b hon he =>
    generalize hk : s.pc p = k₀ at he
    cases he with
    | kill hpid =>
      refine .inr (.inr ?_)
      unfold victim
      rw [hon]
      simp [hk, ProcPc.killing, hpid]
    | noPagetable | noMemory | reap => exact .inr (.inl rfl)
    | exitWake | exitWakeup => exact .inl (by rw [(Proc.woken_wakeup1 _ _).eq])
    | _ => exact .inl rfl
  | @switch _ k hon hk =>
    generalize s.pc q = k₀ at hk
    cases hk <;> exact .inl rfl

namespace Unmarked

variable {a : ProcAct m}

theorem step_unused (h : Unmarked s) (hC : KillsUsed s a) (hst : Steps s a.on t)
    (hq : (s.proc q).state = .unused) : (t.proc q).killed = false := by
  rcases (hst.touched q).killed with he | hx | hv
  · rw [he]
    exact h q hq
  · rw [hx]
    rfl
  · exact absurd hq (hC q hv)

theorem step (h : Unmarked s) (hC : KillsUsed s a) (hst : Steps s a.on t) : Unmarked t := by
  intro q hq
  rcases (hst.touched q).unused hq with hold | hx
  · exact h.step_unused hC hst hold
  · rw [hx]
    rfl

theorem boot : Unmarked (boot : Procs n m) := by
  intro q _
  unfold Procs.boot
  by_cases h0 : q = 0
  · simp [h0, Proc.free]
  · simp [h0, Proc.free]

end Unmarked

/-- As long as `kill` is not given the pid of an unused entry, it hits the
process with that pid and nothing else, and new processes are not killed. -/
theorem kill_hits_process (h : Reaches step KillsUsed boot s) :
    (∀ pid, (∀ q, (s.proc q).state = .unused → (s.proc q).pid ≠ pid) →
      ((kill s.proc pid).1 = 0 ↔ ∃ q, (s.proc q).state ≠ .unused ∧ (s.proc q).pid = pid) ∧
      ((kill s.proc pid).1 = 0 →
        ∃ q, (s.proc q).state ≠ .unused ∧ (s.proc q).pid = pid ∧
          (∀ q', q' ≠ q → (kill s.proc pid).2 q' = s.proc q') ∧
          (kill s.proc pid).2 q = { s.proc q with
            killed := true
            state := if (s.proc q).state = .sleeping then .runnable else (s.proc q).state }) ∧
      ((kill s.proc pid).1 ≠ 0 → kill s.proc pid = (-1, s.proc))) ∧
    (∀ a t, s.step a = some t → KillsUsed s a → ∀ q, (s.proc q).state = .unused →
      (t.proc q).state ≠ .unused → (t.proc q).killed = false) := by
  have hinv : Unmarked s := by
    apply h.invariant Unmarked.boot
    exact fun u v a hu hC hst => hu.step hC (steps_of_step hst)
  refine ⟨fun pid hpid => ?_, fun a t hst hC q hq _ => hinv.step_unused hC (steps_of_step hst) hq⟩
  by_cases hex : ∃ q ∈ List.finRange n, (s.proc q).pid = pid
  · obtain ⟨q, _, hq, he⟩ := killLoop_of_mem s.proc pid hex
    have hkill : kill s.proc pid = (0, update s.proc q (s.proc q).kill) := he
    have hused : (s.proc q).state ≠ .unused := fun hu => hpid q hu hq
    rw [hkill]
    refine ⟨iff_of_true rfl ⟨q, hused, hq⟩, fun _ => ⟨q, hused, hq, fun q' hne => ?_, ?_⟩,
      fun hne => absurd rfl hne⟩
    · exact update_of_ne hne ..
    · exact update_self ..
  · have hnone : ∀ q ∈ List.finRange n, (s.proc q).pid ≠ pid :=
      fun q hq he => hex ⟨q, hq, he⟩
    have hkill : kill s.proc pid = (-1, s.proc) := killLoop_of_not_mem s.proc pid hnone
    rw [hkill]
    refine ⟨iff_of_false (by simp) ?_, fun hz => absurd hz (by simp), fun _ => rfl⟩
    rintro ⟨q, _, he⟩
    exact hnone q (List.mem_finRange q) he

def killInit (c : Fin m) : List (ProcAct m) :=
  startInit c ++ [.call c (.kill 1)] ++ List.replicate 3 (.run c true)

theorem kill_hits_process_killInit :
    ∃ s : Procs 2 1, Reaches step KillsUsed boot s ∧ (s.proc 0).killed = true ∧
      (kill s.proc 1).1 = 0 := by
  have hrun : (exec step (KillsUsed · ·) (boot : Procs 2 1) (killInit 0)).map
      (fun s => ((s.proc 0).killed, (s.proc 0).pid, (s.proc 0).state, (s.proc 1).pid)) =
      some (true, 1, .running, 0) := by decide +kernel
  obtain ⟨s, hs, heq⟩ := Option.map_eq_some_iff.mp hrun
  simp only [Prod.mk.injEq] at heq
  obtain ⟨hkilled, hpid, hstate, hfree⟩ := heq
  have hreach : Reaches step KillsUsed boot s :=
    .exec .refl (fun _ _ _ hok => of_decide_eq_true hok) hs
  have hnot : ∀ q, (s.proc q).state = .unused → (s.proc q).pid ≠ 1 := by
    intro q hq
    match q with
    | 0 =>
      rw [hstate] at hq
      cases hq
    | 1 => simp [hfree]
  exact ⟨s, hreach, hkilled,
    ((kill_hits_process hreach).1 1 hnot).1.mpr ⟨0, by simp [hstate], hpid⟩⟩

def killZeroFork (c : Fin m) : List (ProcAct m) :=
  startInit c ++ [.call c (.kill 0)] ++ List.replicate 8 (.run c true) ++
    [.call c .fork] ++ List.replicate 11 (.run c true)

/-- `kill(0)` finds an unused entry, and the next child starts out killed. -/
theorem kill_marks_unused :
    (∃ s : Procs 2 1, Reaches step (fun _ _ => True) boot s ∧ (kill s.proc 0).1 = 0 ∧
      ∀ q, (s.proc q).state ≠ .unused → (s.proc q).pid ≠ 0) ∧
    ∃ s t : Procs 2 1, Reaches step (fun _ _ => True) boot s ∧ s.step (.run 0 true) = some t ∧
      (s.proc 1).state = .unused ∧ (t.proc 1).state = .runnable ∧ (t.proc 1).killed = true := by
  constructor
  · exact ⟨boot, .refl, by decide +kernel, by decide +kernel⟩
  have hrun : (exec step (fun _ _ => true) (boot : Procs 2 1) (killZeroFork 0)).map
      (fun s => ((s.proc 1).state, (s.step (.run 0 true)).map
        fun t => ((t.proc 1).state, (t.proc 1).killed))) =
      some (.unused, some (.runnable, true)) := by decide +kernel
  obtain ⟨s, hs, heq⟩ := Option.map_eq_some_iff.mp hrun
  obtain ⟨hold, hstep⟩ := Prod.mk.inj heq
  obtain ⟨t, ht, hnew⟩ := Option.map_eq_some_iff.mp hstep
  obtain ⟨hstate, hkilled⟩ := Prod.mk.inj hnew
  exact ⟨s, t, .exec .refl (fun _ _ _ _ => trivial) hs, ht, hold, hstate, hkilled⟩

end Procs

end Xv6.Kernel
