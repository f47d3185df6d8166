import Xv6.Proofs.Procs
/-!
# Locks, CPUs and process states

What fits together in every state: who holds which `p->lock`, which process a
CPU runs, and the state of that process.  One lemma for each kind of step says
that it still fits afterwards.
-/

namespace Xv6.Kernel

open Xv6.Lib List
open Function (update update_eq_self update_of_ne update_self)

variable {n : Nat} {k : ProcPc n} {p q : Fin n}

namespace ProcPc

@[simp] def ends : ProcPc n → Bool
  | .exitSched | .dead => true
  | .release _ k => k.ends
  | _ => false

def forking : ProcPc n → Option (Fin n)
  | .forkPid q | .forkTrapframe q | .forkPagetable q | .forkCopy q | .forkReady q => some q
  | _ => none

def newborn : ProcPc n → Option (Fin n)
  | .forkCopy q | .forkReady q => some q
  | _ => none

theorem forking_of_newborn (h : k.newborn = some q) : k.forking = some q := by
  cases k <;> first | exact h | cases h

@[simp] def inside : ProcPc n → Bool
  | .forkPid _ | .forkTrapframe _ | .forkPagetable _ | .forkCopy _ | .forkReady _
  | .exitZombie _ _ => true
  | _ => false

theorem inside_of_forking (h : k.forking = some q) : k.inside = true := by
  cases k <;> first | rfl | cases h

variable [NeZero n]

/-- A thread waits for a lock that it will then hold, yields with no other lock,
and gets or drops no lock in the middle of what needs it. -/
@[simp] def WF (p : Fin n) : ProcPc n → Prop
  | .acquire q k => q ∈ k.held p ∧ k.ends = false ∧ k.inside = false ∧ k.WF p
  | .release _ k => k.inside = false ∧ k.WF p
  | .yield k => k.held p = [] ∧ k.WF p
  | _ => True

structure Resumes (k : ProcPc n) (p : Fin n) : Prop where
  held : k.held p = [p]
  ends : k.ends = false
  inside : k.inside = false

theorem held_of_forking (h : k.forking = some q) : k.held p = [q] := by
  cases k <;> first | cases h; rfl | cases h

theorem inside_of_held (h : k.held p = []) : k.inside = false := by
  cases k <;> first | rfl | cases h

theorem mem_held_of_ends (h : k.ends = true) : p ∈ k.held p := by
  induction k with
  | exitSched | dead => exact mem_singleton_self p
  | release q k ih => exact mem_cons_of_mem _ (ih h)
  | _ => cases h

theorem ends_of_held (h : k.held p = []) : k.ends = false := by
  cases he : k.ends with
  | false => rfl
  | true =>
    have hmem := mem_held_of_ends (p := p) he
    rw [h] at hmem
    cases hmem

end ProcPc

namespace Procs

variable {m : Nat} [NeZero n] {s t : Procs n m} {c : Fin m} {x : Proc n} {k' : ProcPc n}
  {b : Books n}

namespace Moves

section

variable (h : Moves s p k k')
include h

theorem held_eq : k'.held p = k.held p := by
  cases h with
  | preempt hk => simp [hk]
  | @exitParent st op =>
    by_cases hop : op = p
    · simp [hop]
    · simp [hop]
  | _ => simp

theorem wf (hk : k.WF p) : k'.WF p := by
  cases h with
  | preempt hh => exact ⟨mem_singleton_self p, rfl, rfl, hh, hk⟩
  | @exitParent st op =>
    by_cases hop : op = p
    · simp [hop]
    · simp [hop]
  | _ => simp

theorem ends_eq : k'.ends = false ∧ k.ends = false := by
  cases h with
  | preempt hh => exact ⟨rfl, ProcPc.ends_of_held hh⟩
  | _ => exact ⟨rfl, rfl⟩

theorem forking (hk : k'.forking = some q) : (s.proc q).state = .unused ∨ k.forking = some q := by
  cases h with
  | forkFound hs =>
    cases hk
    exact .inl hs
  | trapframe => exact .inr hk
  | _ => cases hk

theorem newborn : k'.newborn = none := by
  cases h <;> rfl

end

end Moves

namespace Edits

theorem held_eq (h : Edits s p k q x k' b) : k'.held p = k.held p := by
  cases h <;> simp

theorem wf (h : Edits s p k q x k' b) : k'.WF p := by
  cases h <;> simp

theorem mem_held (h : Edits s p k q x k' b) : q ∈ k.held p := by
  cases h <;> simp

end Edits

namespace Switches

theorem held_eq (h : Switches s p k x k') (hk : k.WF p) : k.held p = [p] ∧ k'.held p = [p] := by
  cases h with
  | yield => exact ⟨rfl, by rw [ProcPc.held, hk.1]⟩
  | _ => exact ⟨rfl, rfl⟩

theorem wf (h : Switches s p k x k') (hk : k.WF p) : k'.WF p := by
  cases h with
  | yield => exact ⟨ProcPc.inside_of_held hk.1, hk.2⟩
  | _ => trivial

theorem resumes (h : Switches s p k x k') (hk : k.WF p)
    (hx : x.state = .runnable ∨ x.state = .sleeping) (hz : k.ends = true → x.state = .zombie) :
    k'.Resumes p := by
  cases h with
  | @yield k₀ =>
    have hends : k₀.ends = false := ProcPc.ends_of_held hk.1
    exact ⟨by rw [ProcPc.held, hk.1], hends, rfl⟩
  | exit =>
    rw [hz rfl] at hx
    simp at hx
  | _ => exact ⟨rfl, rfl, rfl⟩

end Switches

/-- Locks, CPUs and process states fit together. -/
structure Sched (s : Procs n m) : Prop where
  lock : ∀ q c, s.lock q = some c ↔ q ∈ s.held c
  nodup : ∀ c, (s.held c).Nodup
  wf : ∀ p, (s.pc p).WF p
  ready : ∀ p, (s.proc p).state = .runnable ∨ (s.proc p).state = .sleeping →
    (s.pc p).Resumes p
  cproc : ∀ c p, s.cproc c = some p ↔ s.cpu c = .on p ∨ s.cpu c = .back p
  one : ∀ c c' p, s.cproc c = some p → s.cproc c' = some p → c = c'
  on : ∀ c p, s.cpu c = .on p →
    (s.proc p).state = .running ∧ (s.pc p).ends = false ∨
    (s.proc p).state = .zombie ∧ (s.pc p).ends = true
  back : ∀ c p, s.cpu c = .back p →
    (s.proc p).state ≠ .running ∧ (s.proc p).state ≠ .unused
  run : ∀ p, (s.proc p).state = .running → ∃ c, s.cpu c = .on p

theorem held_of_on (h : s.cpu c = .on p) : s.held c = (s.pc p).held p := by
  unfold held
  rw [h]

theorem held_congr (hcpu : t.cpu c = s.cpu c)
    (hpc : ∀ p, s.cpu c = .on p → (t.pc p).held p = (s.pc p).held p) : t.held c = s.held c := by
  unfold held
  rw [hcpu]
  cases h : s.cpu c with
  | on p => exact hpc p h
  | _ => rfl

namespace Sched

theorem boot : Sched (boot : Procs n m) where
  lock := by simp [Procs.boot, held]
  nodup := by simp [Procs.boot, held]
  wf := by
    intro p
    unfold Procs.boot
    simp only
    split
    · exact ⟨rfl, trivial⟩
    · trivial
  ready := by
    intro p hp
    unfold Procs.boot at hp ⊢
    by_cases h0 : p = 0
    · simp only [h0, if_true]
      exact ⟨rfl, rfl, rfl⟩
    · simp [h0, Proc.free] at hp
  cproc := by simp [Procs.boot]
  one := by simp [Procs.boot]
  on := by simp [Procs.boot]
  back := by simp [Procs.boot]
  run := by
    intro p hp
    unfold Procs.boot at hp
    by_cases h0 : p = 0
    · simp [h0] at hp
    · simp [h0, Proc.free] at hp

variable {c' : Fin m}

section

variable (h : Sched s) {l : Option (Fin m)}
include h

theorem unique (hc : s.cpu c = .on p) (hc' : s.cpu c' = .on p ∨ s.cpu c' = .back p) : c = c' :=
  h.one c c' p ((h.cproc c p).mpr (.inl hc)) ((h.cproc c' p).mpr hc')

theorem holder (hq : q ∈ s.held c) (hz : (s.proc q).state ≠ .running)
    (hc' : s.cproc c' = some q) : c' = c := by
  have hlock := (h.lock q c).mpr hq
  have hmem : q ∈ s.held c' := by
    rcases (h.cproc c' q).mp hc' with hon | hback
    · rw [held_of_on hon]
      rcases h.on c' q hon with ⟨hr, _⟩ | ⟨_, he⟩
      · exact absurd hr hz
      · exact ProcPc.mem_held_of_ends he
    · unfold held
      rw [hback]
      exact mem_singleton_self q
  rw [(h.lock q c').mpr hmem] at hlock
  exact Option.some.inj hlock

theorem not_waiting (hon : s.cpu c = .on p) :
    ¬((s.proc p).state = .runnable ∨ (s.proc p).state = .sleeping) := by
  rcases h.on c p hon with ⟨hs, _⟩ | ⟨hs, _⟩
  · simp [hs]
  · simp [hs]

theorem edit (hheld : k.held p = (s.pc p).held p) (hwf : k.WF p)
    (hends : p ≠ q → k.ends = (s.pc p).ends)
    (hself : p ≠ q → (s.proc p).state = .runnable ∨ (s.proc p).state = .sleeping → k.Resumes p)
    (hready : x.state = .runnable ∨ x.state = .sleeping →
      (update s.pc p k q).Resumes q) (hon : ∀ c', s.cpu c' = .on q →
      x.state = .running ∧ (update s.pc p k q).ends = false ∨
      x.state = .zombie ∧ (update s.pc p k q).ends = true)
    (hback : ∀ c', s.cpu c' = .back q → x.state ≠ .running ∧ x.state ≠ .unused)
    (hrun : x.state = .running → (s.proc q).state = .running) :
    Sched (((s.setProc q x).setPc p k).withBooks b) := by
  have hcpu : ∀ c', (((s.setProc q x).setPc p k).withBooks b).held c' = s.held c' := by
    refine fun c' => held_congr rfl fun p' _ => ?_
    rcases eq_or_ne p' p with rfl | hp
    · simpa using hheld
    · simp [update_of_ne hp]
  constructor
  · intro q' c'
    rw [hcpu]
    exact h.lock q' c'
  · intro c'
    rw [hcpu]
    exact h.nodup c'
  · intro p'
    rcases eq_or_ne p' p with rfl | hp
    · simpa using hwf
    · simpa [update_of_ne hp] using h.wf p'
  · intro p' hs
    rcases eq_or_ne p' q with rfl | hq
    · exact hready (by simpa using hs)
    simp only [withBooks_proc, setPc_proc, setProc_proc, update_of_ne hq] at hs
    rcases eq_or_ne p' p with rfl | hp
    · simpa using hself hq hs
    · simpa [update_of_ne hp] using h.ready p' hs
  · exact h.cproc
  · exact h.one
  · intro c' p' hc'
    rcases eq_or_ne p' q with rfl | hq
    · simpa using hon c' hc'
    have hpe : (update s.pc p k p').ends = (s.pc p').ends := by
      rcases eq_or_ne p' p with rfl | hp
      · rw [update_self, hends hq]
      · rw [update_of_ne hp]
    simpa [update_of_ne hq, hpe] using h.on c' p' hc'
  · intro c' p' hc'
    rcases eq_or_ne p' q with rfl | hq
    · simpa using hback c' hc'
    · simpa [update_of_ne hq] using h.back c' p' hc'
  · intro p' hs
    rcases eq_or_ne p' q with rfl | hq
    · exact h.run p' (hrun (by simpa using hs))
    · exact h.run p' (by simpa [update_of_ne hq] using hs)

theorem congr (hproc : t.proc = s.proc) (hlock : t.lock = s.lock)
    (hpc : t.pc = s.pc) (hcpu : t.cpu = s.cpu) (hcproc : t.cproc = s.cproc) : Sched t := by
  have hheld : ∀ c, t.held c = s.held c :=
    fun c => held_congr (congrFun hcpu c) fun p _ => by rw [hpc]
  constructor
  · intro q c
    rw [hlock, hheld]
    exact h.lock q c
  · intro c
    rw [hheld]
    exact h.nodup c
  · rw [hpc]
    exact h.wf
  · rw [hpc, hproc]
    exact h.ready
  · rw [hcproc, hcpu]
    exact h.cproc
  · rw [hcproc]
    exact h.one
  · rw [hcpu, hproc, hpc]
    exact h.on
  · rw [hcpu, hproc]
    exact h.back
  · rw [hcpu, hproc]
    exact h.run

theorem touch
    (hst : x.state = (s.proc q).state ∨ (s.proc q).state = .sleeping ∧ x.state = .runnable) :
    Sched (s.setProc q x) := by
  have he : Sched (((s.setProc q x).setPc q (s.pc q)).withBooks s.books) := by
    apply h.edit rfl (h.wf q) (fun hne => absurd rfl hne) (fun hne => absurd rfl hne)
    · intro hx
      rw [update_eq_self]
      refine h.ready q ?_
      rcases hst with he | ⟨hs, _⟩
      · rwa [← he]
      · exact .inr hs
    · intro c' hc'
      rw [update_eq_self]
      rcases hst with he | ⟨hs, _⟩
      · rw [he]
        exact h.on c' q hc'
      · exact absurd (.inr hs) (h.not_waiting hc')
    · intro c' hc'
      rcases hst with he | ⟨_, hx⟩
      · rw [he]
        exact h.back c' q hc'
      · rw [hx]
        decide
    · intro hx
      rcases hst with he | ⟨_, hx'⟩
      · rwa [← he]
      · rw [hx] at hx'
        cases hx'
  refine he.congr rfl rfl ?_ rfl rfl
  simp

theorem move (hon : s.cpu c = .on p) (hheld : k.held p = (s.pc p).held p)
    (hwf : k.WF p) (hends : k.ends = (s.pc p).ends) : Sched (s.setPc p k) := by
  have he : Sched (((s.setProc p (s.proc p)).setPc p k).withBooks s.books) := by
    apply h.edit hheld hwf (fun hne => absurd rfl hne) (fun hne => absurd rfl hne)
    · exact fun hs => absurd hs (h.not_waiting hon)
    · intro c' hc'
      rw [update_self, hends]
      exact h.on c' p hc'
    · exact fun c' hc' => h.back c' p hc'
    · exact fun hs => hs
  refine he.congr ?_ rfl rfl rfl rfl
  simp

theorem lock_acquire (hfree : s.lock q = none) (hlock : t.lock = update s.lock q (some c))
    (hheld : ∀ q', q' ∈ t.held c ↔ q' = q ∨ q' ∈ s.held c)
    (hother : ∀ c', c' ≠ c → t.held c' = s.held c') (q' : Fin n) (c' : Fin m) :
    t.lock q' = some c' ↔ q' ∈ t.held c' := by
  have hnot : ∀ c', q ∉ s.held c' := by
    intro c' hmem
    rw [(h.lock q c').mpr hmem] at hfree
    cases hfree
  rw [hlock]
  rcases eq_or_ne c' c with rfl | hc
  · rw [hheld, ← h.lock]
    by_cases hq : q' = q
    · simp [hq]
    · simp [hq]
  · rw [hother c' hc]
    rcases eq_or_ne q' q with rfl | hq
    · simp [Ne.symm hc, hnot]
    · rw [update_of_ne hq, h.lock]

theorem lock_release (hmine : q ∈ s.held c) (hlock : t.lock = update s.lock q none)
    (hheld : ∀ q', q' ∈ t.held c ↔ q' ≠ q ∧ q' ∈ s.held c)
    (hother : ∀ c', c' ≠ c → t.held c' = s.held c') (q' : Fin n) (c' : Fin m) :
    t.lock q' = some c' ↔ q' ∈ t.held c' := by
  have hq := (h.lock q c).mpr hmine
  rw [hlock]
  rcases eq_or_ne c' c with rfl | hc
  · rw [hheld, ← h.lock]
    by_cases hq : q' = q
    · simp [hq]
    · simp [hq]
  rw [hother c' hc]
  rcases eq_or_ne q' q with rfl | hqq
  · rw [← h.lock q' c', hq]
    simp [Ne.symm hc]
  · rw [update_of_ne hqq, h.lock]

theorem relock (hon : s.cpu c = .on p) (hwf : k.WF p) (hends : k.ends = (s.pc p).ends)
    (hlock : ∀ q' c', ((s.setLock q l).setPc p k).lock q' = some c' ↔
      q' ∈ ((s.setLock q l).setPc p k).held c')
    (hnodup : (k.held p).Nodup) : Sched ((s.setLock q l).setPc p k) := by
  constructor
  · exact hlock
  · intro c'
    by_cases hc : s.cpu c' = .on p
    · rw [held_of_on (s := (s.setLock q l).setPc p k) hc]
      simpa using hnodup
    have hsame : ((s.setLock q l).setPc p k).held c' = s.held c' := by
      refine held_congr rfl fun p' hp' => ?_
      have hne : p' ≠ p := by
        rintro rfl
        exact hc hp'
      simp [update_of_ne hne]
    rw [hsame]
    exact h.nodup c'
  · intro p'
    rcases eq_or_ne p' p with rfl | hp
    · simpa using hwf
    · simpa [update_of_ne hp] using h.wf p'
  · intro p' hs
    have hp : p' ≠ p := by
      rintro rfl
      exact h.not_waiting hon hs
    simpa [update_of_ne hp] using h.ready p' hs
  · exact h.cproc
  · exact h.one
  · intro c' p' hc'
    rcases eq_or_ne p' p with rfl | hp
    · simpa [hends] using h.on c' p' hc'
    · simpa [update_of_ne hp] using h.on c' p' hc'
  · exact h.back
  · exact h.run

theorem held_other (hon : s.cpu c = .on p)
    (hc : c' ≠ c) : ((s.setLock q l).setPc p k).held c' = s.held c' := by
  refine held_congr rfl fun p' hp' => ?_
  have hne : p' ≠ p := by
    rintro rfl
    exact hc (h.unique hon (.inl hp')).symm
  simp [update_of_ne hne]

theorem acquire (hon : s.cpu c = .on p) (hp : s.pc p = .acquire q k)
    (hfree : s.lock q = none) : Sched ((s.setLock q (some c)).setPc p k) := by
  have hw := h.wf p
  rw [hp] at hw
  obtain ⟨hmem, hends, _, hwf⟩ := hw
  have hs : s.held c = (k.held p).erase q := by
    rw [held_of_on hon, hp, ProcPc.held]
  have ht : ((s.setLock q (some c)).setPc p k).held c = k.held p := by
    rw [held_of_on (s := (s.setLock q _).setPc p k) hon]
    simp
  have hnot : q ∉ s.held c := by
    intro hq
    rw [(h.lock q c).mpr hq] at hfree
    cases hfree
  have hperm : (k.held p).Perm (q :: s.held c) := by
    rw [hs]
    exact perm_cons_erase hmem
  apply h.relock hon hwf (by rw [hp, hends]; rfl)
  · apply h.lock_acquire hfree rfl
    · intro q'
      rw [ht, hperm.mem_iff, mem_cons]
    · exact fun c' hc => h.held_other hon hc
  · exact hperm.nodup_iff.mpr (nodup_cons.mpr ⟨hnot, h.nodup c⟩)

theorem release (hon : s.cpu c = .on p) (hp : s.pc p = .release q k) :
    Sched ((s.setLock q none).setPc p k) := by
  have hw := h.wf p
  rw [hp] at hw
  have hs : s.held c = q :: k.held p := by
    rw [held_of_on hon, hp, ProcPc.held]
  have ht : ((s.setLock q none).setPc p k).held c = k.held p := by
    rw [held_of_on (s := (s.setLock q _).setPc p k) hon]
    simp
  have hnd := h.nodup c
  rw [hs, nodup_cons] at hnd
  apply h.relock hon hw.2 (by rw [hp]; rfl)
  · apply h.lock_release (by rw [hs]; exact mem_cons_self) rfl
    · intro q'
      rw [ht, hs, mem_cons]
      constructor
      · intro hq'
        exact ⟨fun he => hnd.1 (he ▸ hq'), .inr hq'⟩
      rintro ⟨hne, hq' | hq'⟩
      · exact absurd hq' hne
      · exact hq'
    · exact fun c' hc => h.held_other hon hc
  · exact hnd.2

end

variable {u : CpuPc n}

section

variable (h : Sched s) {o : Option (Fin n)}
include h

theorem scan (hu : ∀ p, s.cpu c ≠ .on p ∧ s.cpu c ≠ .back p)
    (hu' : ∀ p, u ≠ .on p ∧ u ≠ .back p) (hproc : t.proc = s.proc) (hpc : t.pc = s.pc)
    (hcpu : t.cpu = update s.cpu c u) (hcproc : t.cproc = s.cproc)
    (hlock : ∀ q' c', t.lock q' = some c' ↔ q' ∈ t.held c') (hnodup : (t.held c).Nodup) :
    Sched t := by
  have hon : ∀ c' p, t.cpu c' = .on p ↔ s.cpu c' = .on p := by
    intro c' p
    rw [hcpu]
    rcases eq_or_ne c' c with rfl | hc
    · simp [(hu p).1, (hu' p).1]
    · rw [update_of_ne hc]
  have hback : ∀ c' p, t.cpu c' = .back p ↔ s.cpu c' = .back p := by
    intro c' p
    rw [hcpu]
    rcases eq_or_ne c' c with rfl | hc
    · simp [(hu p).2, (hu' p).2]
    · rw [update_of_ne hc]
  constructor
  · exact hlock
  · intro c'
    rcases eq_or_ne c' c with rfl | hc
    · exact hnodup
    have hsame : t.held c' = s.held c' :=
      held_congr (by rw [hcpu, update_of_ne hc]) fun p _ => by rw [hpc]
    rw [hsame]
    exact h.nodup c'
  · rw [hpc]
    exact h.wf
  · rw [hpc, hproc]
    exact h.ready
  · intro c' p
    rw [hcproc, hon, hback]
    exact h.cproc c' p
  · rw [hcproc]
    exact h.one
  · intro c' p hc'
    rw [hproc, hpc]
    exact h.on c' p ((hon c' p).mp hc')
  · intro c' p hc'
    rw [hproc]
    exact h.back c' p ((hback c' p).mp hc')
  · intro p hp
    rw [hproc] at hp
    obtain ⟨c', hc'⟩ := h.run p hp
    exact ⟨c', (hon c' p).mpr hc'⟩

theorem pick (hc : s.cpu c = .scan q) (hfree : s.lock q = none) :
    Sched ((s.setLock q (some c)).setCpu c (.look q)) := by
  have hs : s.held c = [] := by
    unfold held
    rw [hc]
  have ht : ((s.setLock q (some c)).setCpu c (.look q)).held c = [q] := by
    unfold held
    simp
  refine h.scan (by simp [hc]) (by simp) rfl rfl rfl rfl ?_ (by rw [ht]; exact nodup_singleton q)
  apply h.lock_acquire hfree rfl
  · intro q'
    rw [ht, hs]
    simp
  · exact fun c' hne => held_congr (update_of_ne hne ..) fun _ _ => rfl

theorem leave (hc : s.cpu c = .leave q) : Sched ((s.setLock q none).setCpu c (.scan (q + 1))) := by
  have hs : s.held c = [q] := by
    unfold held
    rw [hc]
  have ht : ((s.setLock q none).setCpu c (.scan (q + 1))).held c = [] := by
    unfold held
    simp
  refine h.scan (by simp [hc]) (by simp) rfl rfl rfl rfl ?_ (by rw [ht]; exact nodup_nil)
  apply h.lock_release (by rw [hs]; exact mem_singleton_self q) rfl
  · intro q'
    rw [ht, hs]
    simp
  · exact fun c' hne => held_congr (update_of_ne hne ..) fun _ _ => rfl

theorem scan_held (hu : ∀ p, s.cpu c ≠ .on p ∧ s.cpu c ≠ .back p)
    (hu' : ∀ p, u ≠ .on p ∧ u ≠ .back p) (hheld : (s.setCpu c u).held c = s.held c) :
    Sched (s.setCpu c u) := by
  have hall : ∀ c', (s.setCpu c u).held c' = s.held c' := by
    intro c'
    rcases eq_or_ne c' c with rfl | hc
    · exact hheld
    · exact held_congr (update_of_ne hc ..) fun _ _ => rfl
  refine h.scan hu hu' rfl rfl rfl rfl ?_ (by rw [hheld]; exact h.nodup c)
  intro q' c'
  rw [hall]
  exact h.lock q' c'

theorem handover (hcpu : t.cpu = update s.cpu c u) (hcproc : t.cproc = update s.cproc c o)
    (hlock : t.lock = s.lock) (hheld : ∀ c', t.held c' = s.held c') (hwf : ∀ p, (t.pc p).WF p)
    (hready : ∀ p, (t.proc p).state = .runnable ∨ (t.proc p).state = .sleeping →
      (t.pc p).Resumes p) (ho : ∀ p, o = some p ↔ u = .on p ∨ u = .back p)
    (hone : ∀ c' p, o = some p → s.cproc c' = some p → c = c') (hon : ∀ c' p, t.cpu c' = .on p →
      (t.proc p).state = .running ∧ (t.pc p).ends = false ∨
      (t.proc p).state = .zombie ∧ (t.pc p).ends = true) (hback : ∀ c' p, t.cpu c' = .back p →
      (t.proc p).state ≠ .running ∧ (t.proc p).state ≠ .unused)
    (hrun : ∀ p, (t.proc p).state = .running → ∃ c', t.cpu c' = .on p) : Sched t := by
  constructor
  · intro q' c'
    rw [hlock, hheld]
    exact h.lock q' c'
  · intro c'
    rw [hheld]
    exact h.nodup c'
  · exact hwf
  · exact hready
  · intro c' p
    rw [hcproc, hcpu]
    rcases eq_or_ne c' c with rfl | hc
    · simpa using ho p
    · simpa [update_of_ne hc] using h.cproc c' p
  · intro c1 c2 p h1 h2
    rw [hcproc] at h1 h2
    rcases eq_or_ne c1 c with rfl | hc1
    · rw [update_self] at h1
      by_cases hc2 : c2 = c1
      · exact hc2.symm
      · rw [update_of_ne hc2] at h2
        exact hone c2 p h1 h2
    rw [update_of_ne hc1] at h1
    rcases eq_or_ne c2 c with rfl | hc2
    · rw [update_self] at h2
      exact (hone c1 p h2 h1).symm
    · rw [update_of_ne hc2] at h2
      exact h.one c1 c2 p h1 h2
  · exact hon
  · exact hback
  · exact hrun

theorem dispatch (hc : s.cpu c = .look q) (hs : (s.proc q).state = .runnable) :
    Sched (((s.setProc q { s.proc q with state := .running }).setCproc c (some q)).setCpu c
      (.on q)) := by
  have hr := h.ready q (.inl hs)
  have hheld : s.held c = [q] := by
    unfold held
    rw [hc]
  have hholder : ∀ c', s.cproc c' = some q → c' = c :=
    fun c' => h.holder (by rw [hheld]; exact mem_singleton_self q) (by simp [hs])
  have hnone : ∀ c', s.cproc c' ≠ some q := by
    intro c' hc'
    have he := hholder c' hc'
    subst he
    rcases (h.cproc c' q).mp hc' with ho | hb
    · simp [hc] at ho
    · simp [hc] at hb
  refine h.handover (u := .on q) (o := some q) rfl rfl rfl ?_ h.wf ?_ (by simp)
    (fun c' p ho hc' => ?_) ?_ ?_ ?_
  · intro c'
    rcases eq_or_ne c' c with rfl | he
    · rw [hheld]
      unfold held
      simpa using hr.held
    · exact held_congr (update_of_ne he ..) fun _ _ => rfl
  · intro p hp
    rcases eq_or_ne p q with rfl | hq
    · simp at hp
    · exact h.ready p (by simpa [update_of_ne hq] using hp)
  · cases ho
    exact absurd hc' (hnone c')
  · intro c' p hp
    rcases eq_or_ne p q with rfl | hq
    · simpa using hr.ends
    have hne : c' ≠ c := by
      rintro rfl
      simp [Ne.symm hq] at hp
    simp only [setCpu_cpu, update_of_ne hne] at hp
    simpa [update_of_ne hq] using h.on c' p hp
  · intro c' p hp
    have hne : c' ≠ c := by
      rintro rfl
      simp at hp
    simp only [setCpu_cpu, update_of_ne hne] at hp
    have hq : p ≠ q := by
      rintro rfl
      exact hnone c' ((h.cproc c' p).mpr (.inr hp))
    simpa [update_of_ne hq] using h.back c' p hp
  · intro p hp
    rcases eq_or_ne p q with rfl | hq
    · exact ⟨c, by simp⟩
    obtain ⟨c', hc'⟩ := h.run p (by simpa [update_of_ne hq] using hp)
    have hne : c' ≠ c := by
      rintro rfl
      simp [hc] at hc'
    exact ⟨c', by simpa [update_of_ne hne] using hc'⟩

theorem forget (hc : s.cpu c = .back q) : Sched ((s.setCproc c none).setCpu c (.leave q)) := by
  have hother : ∀ c' u, update s.cpu c (.leave q) c' = u → u ≠ .leave q →
      s.cpu c' = u ∧ c' ≠ c := by
    intro c' u hu hne
    rcases eq_or_ne c' c with rfl | he
    · rw [update_self] at hu
      exact absurd hu.symm hne
    · rw [update_of_ne he] at hu
      exact ⟨hu, he⟩
  refine h.handover (u := .leave q) (o := none) rfl rfl rfl ?_ h.wf h.ready (by simp) (by simp)
    (fun c' p hp => h.on c' p (hother c' _ hp (by simp)).1)
    (fun c' p hp => h.back c' p (hother c' _ hp (by simp)).1) fun p hp => ?_
  · intro c'
    rcases eq_or_ne c' c with rfl | he
    · unfold held
      simp [hc]
    · exact held_congr (update_of_ne he ..) fun _ _ => rfl
  · obtain ⟨c', hc'⟩ := h.run p hp
    have hne : c' ≠ c := by
      rintro rfl
      simp [hc] at hc'
    exact ⟨c', by simpa [update_of_ne hne] using hc'⟩

theorem switch (hon : s.cpu c = .on p) (hk : Switches s p (s.pc p) x k) :
    Sched (s.swtch c p x k) := by
  have hwf := h.wf p
  have hstate : x.state ≠ .running ∧ x.state ≠ .unused ∧
      ((s.pc p).ends = true → x.state = .zombie) := by
    have ho := h.on c p hon
    generalize s.pc p = k₀ at hk ho
    cases hk with
    | yield => simp
    | sleep => simp
    | wait => simp
    | exit =>
      rcases ho with ⟨_, he⟩ | ⟨hz, _⟩
      · cases he
      · simp [hz]
  have hother : ∀ c' u, update s.cpu c (.back p) c' = u → u ≠ .back p →
      s.cpu c' = u ∧ c' ≠ c := by
    intro c' u hu hne
    rcases eq_or_ne c' c with rfl | he
    · rw [update_self] at hu
      exact absurd hu.symm hne
    · rw [update_of_ne he] at hu
      exact ⟨hu, he⟩
  have hcp := (h.cproc c p).mpr (.inl hon)
  refine h.handover (u := .back p) (o := some p) rfl ?_ rfl ?_ ?_ ?_ (by simp)
    (fun c' p' ho hc' => ?_) (fun c' p' hp' => ?_) (fun c' p' hp' => ?_) fun p' hp' => ?_
  · rw [swtch_cproc, ← hcp, update_eq_self]
  · intro c'
    rcases eq_or_ne c' c with rfl | he
    · rw [held_of_on hon, (hk.held_eq hwf).1]
      unfold held
      simp
    refine held_congr (update_of_ne he ..) fun p' hp' => ?_
    have hne : p' ≠ p := by
      rintro rfl
      exact he (h.unique hon (.inl hp')).symm
    simp [update_of_ne hne]
  · intro p'
    rcases eq_or_ne p' p with rfl | hp
    · simpa using hk.wf hwf
    · simpa [update_of_ne hp] using h.wf p'
  · intro p' hp'
    rcases eq_or_ne p' p with rfl | hp
    · simpa using hk.resumes hwf (by simpa using hp') hstate.2.2
    · simpa [update_of_ne hp] using h.ready p' (by simpa [update_of_ne hp] using hp')
  · cases ho
    exact h.one c c' p hcp hc'
  · obtain ⟨hc', hne⟩ := hother c' _ hp' (by simp)
    have hp : p' ≠ p := by
      rintro rfl
      exact hne (h.unique hon (.inl hc')).symm
    simpa [update_of_ne hp] using h.on c' p' hc'
  · rcases eq_or_ne p' p with rfl | hp
    · simpa using ⟨hstate.1, hstate.2.1⟩
    · obtain ⟨hc', _⟩ := hother c' _ hp' (by simp [hp])
      simpa [update_of_ne hp] using h.back c' p' hc'
  · have hp : p' ≠ p := by
      rintro rfl
      simp [hstate.1] at hp'
    obtain ⟨c', hc'⟩ := h.run p' (by simpa [update_of_ne hp] using hp')
    have hne : c' ≠ c := by
      rintro rfl
      rw [hon] at hc'
      exact hp (CpuPc.on.inj hc').symm
    exact ⟨c', by simpa [update_of_ne hne] using hc'⟩

theorem setUp (hq : (s.proc q).state = .unused) (hwf : k.WF q) : Sched (s.setPc q k) := by
  have hnot : ∀ c', s.cpu c' ≠ .on q := by
    intro c' hc'
    have ho := h.on c' q hc'
    simp [hq] at ho
  have hheld : ∀ c', (s.setPc q k).held c' = s.held c' := by
    refine fun c' => held_congr rfl fun p' hp' => ?_
    have hne : p' ≠ q := by
      rintro rfl
      exact hnot c' hp'
    simp [update_of_ne hne]
  constructor
  · intro q' c'
    rw [hheld]
    exact h.lock q' c'
  · intro c'
    rw [hheld]
    exact h.nodup c'
  · intro p'
    rcases eq_or_ne p' q with rfl | hp
    · simpa using hwf
    · simpa [update_of_ne hp] using h.wf p'
  · intro p' hp'
    have hne : p' ≠ q := by
      rintro rfl
      simp [hq] at hp'
    simpa [update_of_ne hne] using h.ready p' hp'
  · exact h.cproc
  · exact h.one
  · intro c' p' hc'
    have hne : p' ≠ q := by
      rintro rfl
      exact hnot c' hc'
    simpa [update_of_ne hne] using h.on c' p' hc'
  · exact h.back
  · exact h.run

end

end Sched

end Procs

end Xv6.Kernel
