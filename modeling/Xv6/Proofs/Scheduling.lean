import Xv6.Proofs.Cpus
/-!
# Who runs where

A process is on at most one CPU.  The scheduler runs only what it finds
RUNNABLE under `p->lock`, and a process that is on a CPU is RUNNING, or ZOMBIE
on its way out with that lock held, so no other CPU can pick it up and `wait`
cannot free it.
-/

namespace Xv6.Kernel

open Xv6.Lib Function

namespace Procs

variable {n m : Nat} [NeZero n] {s t : Procs n m} {c c' : Fin m} {p q : Fin n} {x : Proc n}
  {k k' : ProcPc n} {b : Books n} {C : Procs n m → ProcAct m → Prop}

/-! ## The entry that `fork` fills -/

structure Forks (s : Procs n m) : Prop where
  unused : ∀ c p q, s.cpu c = .on p → (s.pc p).forking = some q → (s.proc q).state = .unused
  born : ∀ c p q, s.cpu c = .on p → (s.pc p).newborn = some q →
    s.pc q = .release q (.user 0)

theorem Forks.boot : Forks (boot : Procs n m) where
  unused := by simp [Procs.boot]
  born := by simp [Procs.boot]

theorem Sched.running (h : Sched s) (hon : s.cpu c = .on p) (hk : (s.pc p).ends = false) :
    (s.proc p).state = .running := by
  rcases h.on c p hon with ⟨hs, _⟩ | ⟨_, he⟩
  · exact hs
  · rw [hk] at he
    cases he

theorem Sched.edits (h : Sched s) (hf : Forks s) (hon : s.cpu c = .on p)
    (he : Edits s p (s.pc p) q x k b) : Sched (((s.setProc q x).setPc p k).withBooks b) := by
  have hheld := he.held_eq
  have hwf := he.wf
  have hmem : q ∈ s.held c := by
    rw [held_of_on hon]
    exact he.mem_held
  -- the edits that leave the state of the process as it is, or wake it up
  have hkeep : k.ends = (s.pc p).ends →
      (x.state = (s.proc q).state ∨ (s.proc q).state = .sleeping ∧ x.state = .runnable) →
      Sched (((s.setProc q x).setPc p k).withBooks b) := fun hends hst =>
    ((h.touch hst).move (c := c) hon hheld hwf hends).congr rfl rfl rfl rfl rfl
  have hunused : (s.pc p).forking = some q → (s.proc q).state = .unused := hf.unused c p q hon
  have hborn : (s.pc p).newborn = some q → s.pc q = .release q (.user 0) := hf.born c p q hon
  have hrun : (s.pc p).ends = false → (s.proc p).state = .running := h.running hon
  generalize hk0 : s.pc p = k₀ at he hheld hkeep hunused hborn hrun
  cases he with
  | sleepBack => exact hkeep rfl (.inl rfl)
  | kill => exact hkeep rfl (Proc.woken_kill _).state
  | pid => exact hkeep rfl (.inl rfl)
  | noPagetable => exact hkeep rfl (.inl (hunused rfl).symm)
  | noMemory => exact hkeep rfl (.inl (hunused rfl).symm)
  | copied => exact hkeep rfl (.inl rfl)
  | ready =>
    have hq := hunused rfl
    have hne : q ≠ p := by
      rintro rfl
      rw [hrun rfl] at hq
      cases hq
    apply h.edit (by rw [hk0, hheld]) hwf (fun _ => by rw [hk0]; rfl)
      (fun _ hs => absurd hs (h.not_waiting hon))
    · intro _
      rw [update_of_ne hne, hborn rfl]
      exact ⟨rfl, rfl, rfl⟩
    · intro c' hc'
      have ho := h.on c' q hc'
      simp [hq] at ho
    · exact fun c' hc' => absurd hq (h.back c' q hc').2
    · simp
  | exitWake => exact hkeep rfl (Proc.woken_wakeup1 _ _).state
  | give => exact hkeep rfl (.inl rfl)
  | exitWakeup => exact hkeep rfl (Proc.woken_wakeup1 _ _).state
  | zombie =>
    apply h.edit (by rw [hk0, hheld]) hwf (fun hne => absurd rfl hne) (fun hne => absurd rfl hne)
    · simp
    · intro c' _
      simp
    · simp
    · simp
  | reap hz =>
    have hne : q ≠ p := by
      rintro rfl
      rw [hrun rfl] at hz
      cases hz
    have hnone : ∀ c', s.cproc c' ≠ some q := by
      intro c' hc'
      have hcc := h.holder hmem (by simp [hz]) hc'
      subst hcc
      rcases (h.cproc c' q).mp hc' with ho | hb
      · rw [hon] at ho
        exact hne (CpuPc.on.inj ho).symm
      · rw [hon] at hb
        cases hb
    apply h.edit (by rw [hk0, hheld]) hwf (fun _ => by rw [hk0]; rfl)
      (fun _ hs => absurd hs (h.not_waiting hon))
    · simp [Proc.free]
    · exact fun c' hc' => absurd ((h.cproc c' q).mpr (.inl hc')) (hnone c')
    · exact fun c' hc' => absurd ((h.cproc c' q).mpr (.inr hc')) (hnone c')
    · simp [Proc.free]
  | waitBack => exact hkeep rfl (.inl rfl)

theorem Sched.step (h : Sched s) (hf : Forks s) (hst : Steps s c t) : Sched t := by
  cases hst with
  | wrap hc =>
    refine h.scan_held (by simp [hc]) (by simp) ?_
    unfold held
    simp [hc]
  | pick hc hl => exact h.pick hc hl
  | skip hc =>
    refine h.scan_held (by simp [hc]) (by simp) ?_
    unfold held
    simp [hc]
  | dispatch hc hs => exact h.dispatch hc hs
  | back hc => exact h.forget hc
  | leave hc => exact h.leave hc
  | waking => exact h.congr rfl rfl rfl rfl rfl
  | visit hl => exact (h.touch (Proc.woken_wakeup _ _).state).congr rfl rfl rfl rfl rfl
  | move hon hm =>
    exact h.move hon hm.held_eq (hm.wf (h.wf _)) (hm.ends_eq.1.trans hm.ends_eq.2.symm)
  | acquire hon hp hl => exact h.acquire hon hp hl
  | release hon hp => exact h.release hon hp
  | edit hon he => exact h.edits hf hon he
  | @born p q hon hp =>
    have hq := hf.unused c p q hon (by rw [hp]; rfl)
    have hne : p ≠ q := by
      rintro rfl
      rw [h.running hon (by rw [hp]; rfl)] at hq
      cases hq
    have hwf : (ProcPc.release q (.user 0)).WF q := ⟨rfl, trivial⟩
    refine (h.setUp hq hwf).move hon ?_ trivial ?_
    · rw [setPc_pc, update_of_ne hne, hp]
      rfl
    · rw [setPc_pc, update_of_ne hne, hp]
      rfl
  | switch hon hk => exact h.switch hon hk

/-! ## What a CPU cannot touch -/

theorem Steps.cpu_frame (hst : Steps s c t) (hne : c' ≠ c) : t.cpu c' = s.cpu c' := by
  cases hst <;> simp [update_of_ne hne]

theorem Sched.proc_frame (h : Sched s) (hst : Steps s c t)
    (hl : s.lock q = some c') (hne : c' ≠ c) : t.proc q = s.proc q := by
  have hnot : q ∉ s.held c := by
    intro hmem
    rw [(h.lock q c).mpr hmem] at hl
    exact hne (Option.some.inj hl).symm
  cases hst with
  | @dispatch q' hc =>
    refine update_of_ne ?_ ..
    rintro rfl
    apply hnot
    unfold held
    rw [hc]
    exact List.mem_singleton_self q
  | visit hfree =>
    refine update_of_ne ?_ ..
    rintro rfl
    rw [hl] at hfree
    cases hfree
  | edit hon he =>
    refine update_of_ne ?_ ..
    rintro rfl
    apply hnot
    rw [held_of_on hon]
    exact he.mem_held
  | @switch p x k hon hk =>
    refine update_of_ne ?_ ..
    rintro rfl
    apply hnot
    rw [held_of_on hon, (hk.held_eq (h.wf q)).1]
    exact List.mem_singleton_self q
  | _ => rfl

theorem Sched.pc_frame (h : Sched s) (hf : Forks s) (hst : Steps s c t) (hnot : s.cpu c ≠ .on p)
    (hset : (s.proc p).state = .unused → s.lock p ≠ some c) : t.pc p = s.pc p := by
  have hne : ∀ p', s.cpu c = .on p' → p ≠ p' := by
    rintro p' hp' rfl
    exact hnot hp'
  cases hst with
  | move hon => exact update_of_ne (hne _ hon) ..
  | acquire hon => exact update_of_ne (hne _ hon) ..
  | release hon => exact update_of_ne (hne _ hon) ..
  | edit hon => exact update_of_ne (hne _ hon) ..
  | @born p' q hon hp' =>
    have hq := hf.unused c p' q hon (by rw [hp']; rfl)
    have hmem : q ∈ s.held c := by
      rw [held_of_on hon, hp']
      exact List.mem_singleton_self q
    have hpq : p ≠ q := by
      rintro rfl
      exact hset hq ((h.lock p c).mpr hmem)
    simp [update_of_ne (hne _ hon), update_of_ne hpq]
  | switch hon => exact update_of_ne (hne _ hon) ..
  | _ => rfl

namespace Forks

variable {q' : Fin n}

theorem step_other (h : Sched s) (hf : Forks s) (hst : Steps s c t) (hne : c' ≠ c)
    (hon : t.cpu c' = .on p) : s.cpu c' = .on p ∧ t.pc p = s.pc p ∧
      ∀ q, (s.pc p).forking = some q → t.proc q = s.proc q ∧ t.pc q = s.pc q := by
  rw [hst.cpu_frame hne] at hon
  refine ⟨hon, ?_, ?_⟩
  · refine h.pc_frame hf hst (fun hc => hne (h.unique hon (.inl hc))) fun hu => ?_
    have ho := h.on c' p hon
    simp [hu] at ho
  intro q hq
  have hlock : s.lock q = some c' := by
    rw [h.lock, held_of_on hon, ProcPc.held_of_forking hq]
    exact List.mem_singleton_self q
  refine ⟨h.proc_frame hst hlock hne, h.pc_frame hf hst (fun hc => ?_) fun _ => ?_⟩
  · have ho := h.on c q hc
    simp [hf.unused c' p q hon hq] at ho
  · rw [hlock]
    exact fun he => hne (Option.some.inj he)

theorem step_edit (hf : Forks s) (hon : s.cpu c = .on p)
    (he : Edits s p (s.pc p) q' x k b) (hk : k.forking = some q) :
    q' = q ∧ x.state = .unused ∧ (k.newborn = some q → (s.pc p).newborn = some q) := by
  have hu : (s.pc p).forking = some q' → (s.proc q').state = .unused := hf.unused c p q' hon
  generalize s.pc p = k₀ at he hu
  cases he with
  | pid =>
    cases hk
    exact ⟨rfl, hu rfl, nofun⟩
  | copied =>
    cases hk
    exact ⟨rfl, hu rfl, fun _ => rfl⟩
  | _ => cases hk

theorem step (h : Sched s) (hf : Forks s) (hst : Steps s c t) : Forks t := by
  have hown : ∀ p, t.cpu c = .on p → ∀ q, (t.pc p).forking = some q →
      (t.proc q).state = .unused ∧
      ((t.pc p).newborn = some q → t.pc q = .release q (.user 0)) := by
    intro p hp q hq
    cases hst with
    | wrap => simp at hp
    | pick => simp at hp
    | skip => simp at hp
    | @dispatch q' hc hs =>
      simp only [setCpu_cpu, update_self, CpuPc.on.injEq] at hp
      subst hp
      have hn := (h.ready q' (.inl hs)).inside
      simp only [setCpu_pc, setCproc_pc, setProc_pc] at hq
      rw [ProcPc.inside_of_forking hq] at hn
      cases hn
    | back => simp at hp
    | leave => simp at hp
    | waking => exact ⟨hf.unused c p q hp hq, hf.born c p q hp⟩
    | @visit q' a w hl =>
      refine ⟨?_, hf.born c p q hp⟩
      have hu := hf.unused c p q hp hq
      rcases eq_or_ne q q' with rfl | he
      · simp [Proc.wakeup, hu]
      · simpa [update_of_ne he] using hu
    | @move p' k hon hm =>
      cases hon.symm.trans hp
      simp only [setPc_pc, update_self] at hq ⊢
      refine ⟨?_, fun hb => ?_⟩
      · rcases hm.forking hq with hu | ho
        · exact hu
        · exact hf.unused c _ q hon ho
      · rw [hm.newborn] at hb
        cases hb
    | @acquire p' q' k hon hpc =>
      have hpp : p' = p := CpuPc.on.inj (hon.symm.trans hp)
      subst hpp
      simp only [setPc_pc, update_self] at hq
      have hwf := h.wf p'
      rw [hpc] at hwf
      have hin := hwf.2.2.1
      rw [ProcPc.inside_of_forking hq] at hin
      cases hin
    | @release p' q' k hon hpc =>
      have hpp : p' = p := CpuPc.on.inj (hon.symm.trans hp)
      subst hpp
      simp only [setPc_pc, update_self] at hq
      have hwf := h.wf p'
      rw [hpc] at hwf
      have hin := hwf.1
      rw [ProcPc.inside_of_forking hq] at hin
      cases hin
    | @edit p' q' x k b hon he =>
      have hpp : p' = p := CpuPc.on.inj (hon.symm.trans hp)
      subst hpp
      simp only [withBooks_pc, setPc_pc, update_self] at hq ⊢
      obtain ⟨rfl, hx, hb⟩ := step_edit hf hon he hq
      refine ⟨by simpa using hx, fun hk => ?_⟩
      have hold := hb hk
      have hne : q' ≠ p' := by
        rintro rfl
        have hu := hf.unused c q' q' hon (ProcPc.forking_of_newborn hold)
        have ho := h.on c q' hon
        simp [hu] at ho
      simpa [update_of_ne hne] using hf.born c p' q' hon hold
    | @born p' q' hon hpc =>
      have hpp : p' = p := CpuPc.on.inj (hon.symm.trans hp)
      subst hpp
      simp only [setPc_pc, update_self] at hq ⊢
      have hqq : q' = q := Option.some.inj hq
      subst hqq
      have hu := hf.unused c p' q' hon (by rw [hpc]; rfl)
      have hne : q' ≠ p' := by
        rintro rfl
        have ho := h.on c q' hon
        simp [hu] at ho
      exact ⟨hu, fun _ => by simp [update_of_ne hne]⟩
    | switch => simp at hp
  constructor
  · intro c' p q hp hq
    rcases eq_or_ne c' c with rfl | hc
    · exact (hown p hp q hq).1
    obtain ⟨hon, hpc, hframe⟩ := step_other h hf hst hc hp
    rw [hpc] at hq
    rw [(hframe q hq).1]
    exact hf.unused c' p q hon hq
  · intro c' p q hp hq
    rcases eq_or_ne c' c with rfl | hc
    · exact (hown p hp q (ProcPc.forking_of_newborn hq)).2 hq
    obtain ⟨hon, hpc, hframe⟩ := step_other h hf hst hc hp
    rw [hpc] at hq
    rw [(hframe q (ProcPc.forking_of_newborn hq)).2]
    exact hf.born c' p q hon hq

end Forks

theorem Sched.reaches (h : Reaches Procs.step C Procs.boot s) : Sched s ∧ Forks s := by
  apply h.invariant (I := fun s => Sched s ∧ Forks s) ⟨Sched.boot, Forks.boot⟩
  rintro u v a ⟨hs, hf⟩ _ hst
  have hstep := steps_of_step hst
  exact ⟨hs.step hf hstep, hf.step hs hstep⟩

/-! ## The states of a process -/

inductive Goes : Procstate → Procstate → Prop where
  | ready : Goes .unused .runnable
  | run : Goes .runnable .running
  | yield : Goes .running .runnable
  | sleep : Goes .running .sleeping
  | wakeup : Goes .sleeping .runnable
  | exit : Goes .running .zombie
  | free : Goes .zombie .unused

omit [NeZero n] in
private theorem goes_woken {x y : Proc n} (h : x.Woken y) :
    y.state = x.state ∨ Goes x.state y.state := by
  refine h.state.imp_right fun hs => ?_
  rw [hs.1, hs.2]
  exact .wakeup

private theorem goes_edit (h : Sched s) (hf : Forks s) (hon : s.cpu c = .on p)
    (he : Edits s p (s.pc p) q x k b) :
    x.state = (s.proc q).state ∨ Goes (s.proc q).state x.state := by
  have hunused : (s.pc p).forking = some q → (s.proc q).state = .unused := hf.unused c p q hon
  have hrun : (s.pc p).ends = false → (s.proc p).state = .running := h.running hon
  generalize s.pc p = k₀ at he hunused hrun
  cases he with
  | kill =>
    have hgoes := goes_woken (s.proc q).woken_kill
    exact hgoes
  | noPagetable => exact .inl (hunused rfl).symm
  | noMemory => exact .inl (hunused rfl).symm
  | ready =>
    rw [hunused rfl]
    exact .inr .ready
  | exitWake | exitWakeup => exact goes_woken (Proc.woken_wakeup1 _ _)
  | zombie =>
    rw [hrun rfl]
    exact .inr .exit
  | reap hz =>
    rw [hz]
    exact .inr .free
  | _ => exact .inl rfl

private theorem goes_switch (h : Sched s) (hon : s.cpu c = .on p) (hk : Switches s p (s.pc p) x k) :
    x.state = (s.proc p).state ∨ Goes (s.proc p).state x.state := by
  have hrun : (s.pc p).ends = false → (s.proc p).state = .running := h.running hon
  generalize s.pc p = k₀ at hk hrun
  cases hk with
  | yield =>
    rw [hrun rfl]
    exact .inr .yield
  | sleep =>
    rw [hrun rfl]
    exact .inr .sleep
  | exit => exact .inl rfl
  | wait =>
    rw [hrun rfl]
    exact .inr .sleep

theorem Sched.goes (h : Sched s) (hf : Forks s) (hst : Steps s c t) (q : Fin n) :
    (t.proc q).state = (s.proc q).state ∨ Goes (s.proc q).state (t.proc q).state := by
  have hupdate : ∀ q' x, (x.state = (s.proc q').state ∨ Goes (s.proc q').state x.state) →
      (update s.proc q' x q).state = (s.proc q).state ∨
      Goes (s.proc q).state (update s.proc q' x q).state := by
    intro q' x hx
    rcases eq_or_ne q q' with rfl | hq
    · rwa [update_self]
    · rw [update_of_ne hq]
      exact .inl rfl
  cases hst with
  | dispatch _ hr =>
    refine hupdate _ _ ?_
    rw [hr]
    exact .inr .run
  | visit => exact hupdate _ _ (goes_woken (Proc.woken_wakeup _ _))
  | edit hon he => exact hupdate _ _ (goes_edit h hf hon he)
  | switch hon hk => exact hupdate _ _ (goes_switch h hon hk)
  | _ => exact .inl rfl

theorem Sched.freed (h : Sched s) (hf : Forks s) (hst : Steps s c t)
    (hs : (s.proc q).state ≠ .unused) (ht : (t.proc q).state = .unused) :
    (s.proc q).state = .zombie ∧ ∀ c', s.cproc c' ≠ some q := by
  have hz : (s.proc q).state = .zombie := by
    rcases h.goes hf hst q with he | hg
    · exact absurd (he ▸ ht) hs
    rw [ht] at hg
    generalize (s.proc q).state = st at hg
    cases hg
    rfl
  refine ⟨hz, ?_⟩
  have ht' := h.step hf hst
  have hcproc : t.cproc = s.cproc := by
    cases hst with
    | @dispatch q' hc hr =>
      exfalso
      rcases eq_or_ne q q' with rfl | hq
      · simp at ht
      · simp [update_of_ne hq, hs] at ht
    | back => exact absurd ht hs
    | _ => rfl
  intro c' hc'
  rw [← hcproc] at hc'
  rcases (ht'.cproc c' q).mp hc' with ho | hb
  · have hon := ht'.on c' q ho
    simp [ht] at hon
  · exact (ht'.back c' q hb).2 ht

/-- Whatever CPUs, interrupts and system calls do, a process runs on one CPU at
most and is freed on none. -/
theorem scheduling_safety (h : Reaches step C boot s) :
    (∀ p, s.lock p = none → ((s.proc p).state = .running ↔ ∃! c, s.cproc c = some p)) ∧
    (∀ c c' p, s.cproc c = some p → s.cproc c' = some p → c = c') ∧
    (∀ a t, s.step a = some t → ∀ p, (s.proc p).state ≠ .running → (t.proc p).state = .running →
      (s.proc p).state = .runnable) ∧
    (∀ a t, s.step a = some t → ∀ q, (s.proc q).state ≠ .unused → (t.proc q).state = .unused →
      (s.proc q).state = .zombie ∧ ∀ c, s.cproc c ≠ some q) := by
  obtain ⟨hs, hf⟩ := Sched.reaches h
  refine ⟨fun p hfree => ⟨fun hr => ?_, ?_⟩, hs.one, ?_, ?_⟩
  · obtain ⟨c, hc⟩ := hs.run p hr
    have hcp := (hs.cproc c p).mpr (.inl hc)
    exact ⟨c, hcp, fun c' hc' => hs.one c' c p hc' hcp⟩
  · rintro ⟨c, hc, _⟩
    -- with its lock free, the process is neither switching nor on its way out
    have hnot : p ∉ s.held c := by
      intro hmem
      rw [(hs.lock p c).mpr hmem] at hfree
      cases hfree
    rcases (hs.cproc c p).mp hc with hon | hback
    · rcases hs.on c p hon with ⟨hr, _⟩ | ⟨_, he⟩
      · exact hr
      · rw [held_of_on hon] at hnot
        exact absurd (ProcPc.mem_held_of_ends he) hnot
    · unfold held at hnot
      rw [hback] at hnot
      exact absurd (List.mem_singleton_self p) hnot
  · intro a t hst p hr ht
    rcases hs.goes hf (steps_of_step hst) p with he | hg
    · exact absurd (he ▸ ht) hr
    rw [ht] at hg
    generalize (s.proc p).state = st at hg
    cases hg
    rfl
  · exact fun a t hst q hq ht => hs.freed hf (steps_of_step hst) hq ht

def startInit (c : Fin m) : List (ProcAct m) := [.sched c, .sched c, .run c true]

theorem scheduling_safety_startInit :
    ∃ s : Procs 2 2, Reaches step (fun _ _ => True) boot s ∧ (s.proc 0).state = .running ∧
      ∃! c, s.cproc c = some 0 := by
  have hrun : (exec step (fun _ _ => true) (boot : Procs 2 2) (startInit 0)).map
      (fun s => (s.lock 0, (s.proc 0).state)) = some (none, .running) := by decide +kernel
  obtain ⟨s, hs, heq⟩ := Option.map_eq_some_iff.mp hrun
  obtain ⟨hfree, hstate⟩ := Prod.mk.inj heq
  have hreach : Reaches step (fun _ _ => True) boot s :=
    .exec .refl (fun _ _ _ _ => trivial) hs
  exact ⟨s, hreach, hstate, ((scheduling_safety hreach).1 0 hfree).mp hstate⟩

end Procs

end Xv6.Kernel
