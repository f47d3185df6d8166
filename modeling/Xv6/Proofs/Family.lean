import Xv6.Proofs.Scheduling
/-!
# Parents and children

Each place of `exit` and `wait` has an assertion about the process table that
holds whenever a thread is there.  The thread itself makes it true, and the other
threads leave it true, because they change neither the children of a process nor
what its locks protect.
-/

namespace Xv6.Kernel

open Xv6.Lib Function List

variable {n : Nat} {k : ProcPc n} {p : Fin n} {mine mine' : Prop}

namespace ProcPc

variable [NeZero n] {proc proc' : Fin n → Proc n}

/-- What the thread of `p` knows about the table; `mine` says that it holds its
own lock. -/
def Knows (proc : Fin n → Proc n) (p : Fin n) (mine : Prop) : ProcPc n → Prop
  | .acquire _ k => k.Knows proc p mine
  | .release q k => k.Knows proc p (mine ∧ q ≠ p)
  | .yield k => k.Knows proc p False
  | .exitWake _ | .exitParent _ => p ≠ 0
  | .reparent _ op j => p ≠ 0 ∧ ((proc p).parent = some op ∨ (proc p).parent = some 0) ∧
      ∀ q, q.val < j → (proc q).parent ≠ some p
  | .give _ op q => p ≠ 0 ∧ ((proc p).parent = some op ∨ (proc p).parent = some 0) ∧
      (proc q).parent = some p ∧ ∀ q', q'.val < q.val → (proc q').parent ≠ some p
  | .exitWakeup _ op | .exitZombie _ op =>
    p ≠ 0 ∧ ((proc p).parent = some op ∨ (proc p).parent = some 0) ∧ ∀ q, (proc q).parent ≠ some p
  | .waitScan _ j _ => p ≠ 0 → 0 < j → mine ∧
      ∀ q, q.val < j → (proc q).parent = some p → (proc q).state ≠ .zombie
  | .waitLook _ q => (proc q).parent = some p ∧ (p ≠ 0 → mine ∧
      ∀ q', q'.val < q.val → (proc q').parent = some p → (proc q').state ≠ .zombie)
  | .waitEnd _ _ => p ≠ 0 → mine ∧
      ∀ q, (proc q).parent = some p → (proc q).state ≠ .zombie
  | .waitBack _ => (proc p).state = .sleeping → (proc p).chan = some (.proc p) ∧ (p ≠ 0 →
      ∀ q, (proc q).parent = some p → (proc q).state ≠ .zombie)
  | _ => True

def idle : ProcPc n → Bool
  | .user _ | .exitSched | .dead => true
  | .release _ k => k.idle
  | _ => false

omit [NeZero n] in
theorem idle_of_ends (h : k.ends = true) : k.idle = true := by
  induction k with
  | exitSched | dead => rfl
  | release q k ih => exact ih h
  | _ => cases h

theorem Knows.of_idle (h : k.idle = true) : k.Knows proc p mine := by
  induction k generalizing mine with
  | user | exitSched | dead => trivial
  | release q k ih => exact ih h
  | _ => cases h

/-- What `p` relies on while others run. -/
structure Rely (proc proc' : Fin n → Proc n) (p : Fin n) (mine : Prop) : Prop where
  gains : p ≠ 0 → ∀ q, (proc' q).parent = some p → (proc q).parent = some p
  loses : ∀ q, (proc q).parent = some p → (proc' q).parent = some p
  /-- At most they give `p` itself to `initproc`. -/
  parent : ∀ op, (proc p).parent = some op ∨ (proc p).parent = some 0 →
    (proc' p).parent = some op ∨ (proc' p).parent = some 0
  /-- A child needs the lock of `p` to exit. -/
  exits : mine → p ≠ 0 → ∀ q, (proc q).parent = some p → (proc' q).state = .zombie →
    (proc q).state = .zombie
  /-- It wakes `p` up before it exits. -/
  asleep : (proc' p).state = .sleeping → (proc p).state = .sleeping ∧
    (proc' p).chan = (proc p).chan ∧ (p ≠ 0 → (proc p).chan = some (.proc p) →
      ∀ q, (proc q).parent = some p → (proc' q).state = .zombie → (proc q).state = .zombie)

theorem Knows.mono (h : k.Knows proc p mine) (hm : mine → mine') : k.Knows proc p mine' := by
  induction k generalizing mine mine' with
  | acquire q k ih => exact ih h hm
  | release q k ih => exact ih h fun hq => ⟨hm hq.1, hq.2⟩
  | waitScan => exact fun hp hj => (h hp hj).imp_left hm
  | waitLook => exact ⟨h.1, fun hp => (h.2 hp).imp_left hm⟩
  | waitEnd => exact fun hp => (h hp).imp_left hm
  | _ => exact h

theorem Knows.stable (h : k.Knows proc p mine') (hr : Rely proc proc' p mine) (hm : mine' → mine) :
    k.Knows proc' p mine' := by
  have hzombie : mine → p ≠ 0 → ∀ q, ((proc q).parent = some p → (proc q).state ≠ .zombie) →
      (proc' q).parent = some p → (proc' q).state ≠ .zombie := fun hmine hp q hq hpar hz =>
    have hold := hr.gains hp q hpar
    hq hold (hr.exits hmine hp q hold hz)
  induction k generalizing mine' with
  | acquire q k ih => exact ih h hm
  | release q k ih => exact ih h fun hq => hm hq.1
  | yield k ih => exact ih h False.elim
  | reparent st op j =>
    obtain ⟨hp, ho, hq⟩ := h
    exact ⟨hp, hr.parent op ho, fun q hj hpar => hq q hj (hr.gains hp q hpar)⟩
  | give st op q =>
    obtain ⟨hp, ho, hchild, hq⟩ := h
    exact ⟨hp, hr.parent op ho, hr.loses q hchild,
      fun q' hj hpar => hq q' hj (hr.gains hp q' hpar)⟩
  | exitWakeup st op =>
    obtain ⟨hp, ho, hq⟩ := h
    exact ⟨hp, hr.parent op ho, fun q hpar => hq q (hr.gains hp q hpar)⟩
  | exitZombie st op =>
    obtain ⟨hp, ho, hq⟩ := h
    exact ⟨hp, hr.parent op ho, fun q hpar => hq q (hr.gains hp q hpar)⟩
  | waitScan addr j kids =>
    intro hp hj
    obtain ⟨hmine, hq⟩ := h hp hj
    exact ⟨hmine, fun q hlt => hzombie (hm hmine) hp q (hq q hlt)⟩
  | waitLook addr q =>
    refine ⟨hr.loses q h.1, fun hp => ?_⟩
    obtain ⟨hmine, hq⟩ := h.2 hp
    exact ⟨hmine, fun q' hlt => hzombie (hm hmine) hp q' (hq q' hlt)⟩
  | waitEnd addr kids =>
    intro hp
    obtain ⟨hmine, hq⟩ := h hp
    exact ⟨hmine, fun q => hzombie (hm hmine) hp q (hq q)⟩
  | waitBack addr =>
    intro hs
    obtain ⟨hs', hchan, hz⟩ := hr.asleep hs
    obtain ⟨hc, hq⟩ := h hs'
    refine ⟨hchan.trans hc, fun hp q hpar hzq => ?_⟩
    have hold := hr.gains hp q hpar
    exact hq hp q hold (hz hp hc q hold hzq)
  | _ => exact h

end ProcPc

namespace Procs

variable {m : Nat} [NeZero n] {s t : Procs n m} {c c' : Fin m} {q : Fin n} {x : Proc n}
  {k' : ProcPc n} {b : Books n}

def Mine (s : Procs n m) (p : Fin n) : Prop := ∃ c, s.cpu c = .on p ∧ s.lock p = some c

def Alive (s : Procs n m) (p : Fin n) : Prop :=
  (s.proc p).state ≠ .unused ∧ (s.proc p).state ≠ .zombie

/-- Parents are alive, and the threads know what they should. -/
structure Family (s : Procs n m) : Prop where
  alive : ∀ q a, (s.proc q).parent = some a → s.Alive a
  orphan : ∀ q, q ≠ 0 → (s.proc q).state ≠ .unused → (s.proc q).parent ≠ none
  init : (s.proc 0).parent = none ∧ s.Alive 0
  /-- Before it is RUNNABLE, an entry has a parent only at the end of `fork`. -/
  named : ∀ q a, (s.proc q).parent = some a → (s.proc q).state = .unused →
    ∃ c, s.cpu c = .on a ∧ s.pc a = .forkReady q
  copied : ∀ c p q, s.cpu c = .on p → s.pc p = .forkReady q → (s.proc q).parent = some p
  gone : ∀ q, ¬s.Alive q → (s.pc q).idle = true
  bed : ∀ q, (s.proc q).state = .sleeping →
    (s.pc q = .sleepBack ∧ ∃ a, (s.proc q).chan = some (.addr a)) ∨ ∃ addr, s.pc q = .waitBack addr
  /-- `exit` has woken up the parent. -/
  woken : ∀ c p st op, s.cpu c = .on p → s.pc p = .exitZombie st op →
    ¬((s.proc op).state = .sleeping ∧ (s.proc op).chan = some (.proc op))
  knows : ∀ p, (s.pc p).Knows s.proc p (s.Mine p)

/-! ## What a step does to an entry -/

theorem Edits.sleeping (h : Edits s p k q x k' b) (hx : x.state = .sleeping) :
    (s.proc q).state = .sleeping ∧ (q ≠ p → x.chan = (s.proc q).chan) := by
  cases h with
  | kill => exact ⟨(Proc.woken_kill _).state_of hx (by simp), fun _ => rfl⟩
  | exitWake | exitWakeup =>
    have he := (Proc.woken_wakeup1 _ _).same hx (by simp)
    rw [he] at hx ⊢
    exact ⟨hx, fun _ => rfl⟩
  | noPagetable | noMemory | reap | ready | zombie => cases hx
  | sleepBack | waitBack => exact ⟨hx, fun hne => absurd rfl hne⟩
  | _ => exact ⟨hx, fun _ => rfl⟩

inductive Touched (s : Procs n m) (c : Fin m) (q : Fin n) : Proc n → Prop where
  | woken {x : Proc n} : (s.proc q).Woken x → Touched s c q x
  | run : (s.proc q).state = .runnable → Touched s c q { s.proc q with state := .running }
  | edit {p : Fin n} {x : Proc n} {k : ProcPc n} {b : Books n} : s.cpu c = .on p →
      Edits s p (s.pc p) q x k b → Touched s c q x
  | switch {x : Proc n} {k : ProcPc n} : s.cpu c = .on q → Switches s q (s.pc q) x k →
      Touched s c q x

theorem Steps.touched (hst : Steps s c t) (q : Fin n) : Touched s c q (t.proc q) := by
  have hupdate : ∀ q' x, Touched s c q' x → Touched s c q (update s.proc q' x q) := by
    intro q' x hx
    rcases eq_or_ne q q' with rfl | hq
    · rwa [update_self]
    · rw [update_of_ne hq]
      exact .woken (.inl rfl)
  cases hst with
  | dispatch _ hr => exact hupdate _ _ (.run hr)
  | visit => exact hupdate _ _ (.woken (Proc.woken_wakeup _ _))
  | edit hon he => exact hupdate _ _ (.edit hon he)
  | switch hon hk => exact hupdate _ _ (.switch hon hk)
  | _ => exact .woken (.inl rfl)

namespace Touched

section

variable (h : Touched s c q x)
include h

theorem parent : x.parent = (s.proc q).parent ∨
    (∃ p, s.cpu c = .on p ∧ (s.pc p).forking = some q ∧ s.pc p ≠ .forkReady q ∧
      (x = .free ∨ s.pc p = .forkCopy q ∧ x.parent = some p)) ∨
    (∃ p addr, s.cpu c = .on p ∧ s.pc p = .waitLook addr q ∧ (s.proc q).state = .zombie ∧
      x = .free) ∨ ∃ p st op, s.cpu c = .on p ∧ s.pc p = .give st op q ∧
      x = { s.proc q with parent := some 0 } := by
  cases h with
  | woken hw => exact .inl hw.parent
  | run => exact .inl rfl
  | @edit p _ k b hon he =>
    generalize hk : s.pc p = k₀ at he
    cases he with
    | noPagetable | noMemory =>
      exact .inr (.inl ⟨p, hon, by rw [hk]; rfl, by simp [hk], .inl rfl⟩)
    | copied =>
      exact .inr (.inl ⟨p, hon, by rw [hk]; rfl, by simp [hk], .inr ⟨hk, rfl⟩⟩)
    | reap hz => exact .inr (.inr (.inl ⟨p, _, hon, hk, hz, rfl⟩))
    | give => exact .inr (.inr (.inr ⟨p, _, _, hon, hk, rfl⟩))
    | exitWake | exitWakeup => exact .inl (Proc.woken_wakeup1 _ _).parent
    | _ => exact .inl rfl
  | @switch _ k hon hk =>
    generalize s.pc q = k₀ at hk
    cases hk <;> exact .inl rfl

theorem zombie (hs : (s.proc q).state ≠ .zombie) (hx : x.state = .zombie) :
    s.cpu c = .on q ∧ ∃ st op, s.pc q = .exitZombie st op ∧
      x = { s.proc q with xstate := st, state := .zombie } := by
  cases h with
  | woken hw => exact absurd (hw.state_of hx (by simp)) hs
  | run => cases hx
  | @edit p _ k b hon he =>
    generalize hk : s.pc p = k₀ at he
    cases he with
    | zombie => exact ⟨hon, _, _, hk, rfl⟩
    | kill => exact absurd ((Proc.woken_kill _).state_of hx (by simp)) hs
    | exitWake | exitWakeup =>
      exact absurd ((Proc.woken_wakeup1 _ _).state_of hx (by simp)) hs
    | noPagetable | noMemory | reap | ready => cases hx
    | _ => exact absurd hx hs
  | @switch _ k hon hk =>
    generalize s.pc q = k₀ at hk
    cases hk with
    | exit => exact absurd hx hs
    | _ => cases hx

theorem ready (hoff : s.cpu c ≠ .on q) (hs : (s.proc q).state = .unused) (hx : x.state ≠ .unused) :
    ∃ p, s.cpu c = .on p ∧ s.pc p = .forkReady q ∧ x = { s.proc q with state := .runnable } := by
  cases h with
  | woken hw =>
    rcases hw with rfl | ⟨hr, _⟩
    · exact absurd hs hx
    · rw [hs] at hr
      cases hr
  | run hr =>
    rw [hs] at hr
    cases hr
  | @edit p _ k b hon he =>
    generalize hk : s.pc p = k₀ at he
    cases he with
    | ready => exact ⟨p, hon, hk, rfl⟩
    | kill => exact absurd (by simp [Proc.kill, hs]) hx
    | exitWake | exitWakeup => exact absurd (by simp [Proc.wakeup1, hs]) hx
    | noPagetable | noMemory | reap => exact absurd rfl hx
    | zombie => exact absurd hon hoff
    | _ => exact absurd hs hx
  | switch hon => exact absurd hon hoff

theorem unused (hx : x.state = .unused) : (s.proc q).state = .unused ∨ x = .free := by
  cases h with
  | woken hw => exact .inl (hw.state_of hx (by simp))
  | run => cases hx
  | @edit p _ k b hon he =>
    generalize hk : s.pc p = k₀ at he
    cases he with
    | ready | zombie => cases hx
    | kill => exact .inl ((Proc.woken_kill _).state_of hx (by simp))
    | exitWake | exitWakeup => exact .inl ((Proc.woken_wakeup1 _ _).state_of hx (by simp))
    | noPagetable | noMemory | reap => exact .inr rfl
    | _ => exact .inl hx
  | @switch _ k hon hk =>
    generalize s.pc q = k₀ at hk
    cases hk with
    | exit => exact .inl hx
    | _ => cases hx

theorem sleeping (hoff : s.cpu c ≠ .on q) (hx : x.state = .sleeping) :
    (s.proc q).state = .sleeping ∧ x.chan = (s.proc q).chan := by
  cases h with
  | woken hw =>
    have he := hw.same hx (by simp)
    rw [he] at hx ⊢
    exact ⟨hx, rfl⟩
  | run => cases hx
  | edit hon he =>
    refine ⟨(he.sleeping hx).1, (he.sleeping hx).2 ?_⟩
    rintro rfl
    exact hoff hon
  | switch hon => exact absurd hon hoff

end

end Touched

/-! ## What the other threads do -/

theorem Sched.lock_frame (h : Sched s) (hst : Steps s c t) (hl : s.lock q = some c')
    (hne : c' ≠ c) : t.lock q = some c' := by
  have hnot : q ∉ s.held c := by
    intro hmem
    rw [(h.lock q c).mpr hmem] at hl
    exact hne (Option.some.inj hl).symm
  cases hst with
  | pick hc hfree | acquire _ _ hfree =>
    refine (update_of_ne ?_ ..).trans hl
    rintro rfl
    rw [hl] at hfree
    cases hfree
  | leave hc =>
    refine (update_of_ne ?_ ..).trans hl
    rintro rfl
    apply hnot
    unfold held
    rw [hc]
    exact mem_singleton_self q
  | release hon hp =>
    refine (update_of_ne ?_ ..).trans hl
    rintro rfl
    apply hnot
    rw [held_of_on hon, hp]
    exact mem_cons_self
  | _ => exact hl

theorem Sched.same_cpu (h : Sched s) (hq : q ∈ s.held c) (hq' : q ∈ s.held c') : c = c' := by
  have hl := (h.lock q c).mpr hq
  rw [(h.lock q c').mpr hq'] at hl
  exact (Option.some.inj hl).symm

theorem Sched.not_on (h : Sched s) (hq : (s.proc q).state = .unused) (c : Fin m) :
    s.cpu c ≠ .on q := by
  intro hc
  have ho := h.on c q hc
  simp [hq] at ho

/-- What the thread of `p` does at place `k`. -/
inductive Runs (s : Procs n m) (c : Fin m) (p : Fin n) : ProcPc n → Procs n m → Prop where
  | move {k k' : ProcPc n} : Moves s p k k' → Runs s c p k (s.setPc p k')
  | acquire {q : Fin n} {k : ProcPc n} : s.lock q = none →
      Runs s c p (.acquire q k) ((s.setLock q (some c)).setPc p k)
  | release {q : Fin n} {k : ProcPc n} : Runs s c p (.release q k) ((s.setLock q none).setPc p k)
  | edit {q : Fin n} {x : Proc n} {k k' : ProcPc n} {b : Books n} : Edits s p k q x k' b →
      Runs s c p k (((s.setProc q x).setPc p k').withBooks b)
  | born {q : Fin n} : Runs s c p (.forkPagetable q)
      ((s.setPc q (.release q (.user 0))).setPc p (.forkCopy q))
  | switch {x : Proc n} {k k' : ProcPc n} : Switches s p k x k' → Runs s c p k (s.swtch c p x k')

/-- The step leaves the threads alone; it may wake up a process. -/
structure Rests (s t : Procs n m) : Prop where
  pc : t.pc = s.pc
  cpu : t.cpu = s.cpu
  lock : t.lock = s.lock
  proc : ∀ q, (s.proc q).Woken (t.proc q)

theorem Steps.own (hst : Steps s c t) (hon : s.cpu c = .on p) :
    Rests s t ∨ Runs s c p (s.pc p) t := by
  cases hst with
  | wrap hc | pick hc | skip hc | dispatch hc | back hc | leave hc =>
    rw [hon] at hc
    cases hc
  | waking => exact .inl ⟨rfl, rfl, rfl, fun _ => .inl rfl⟩
  | @visit q' a w hl =>
    refine .inl ⟨rfl, rfl, rfl, fun q => ?_⟩
    rcases eq_or_ne q q' with rfl | hq
    · simpa using Proc.woken_wakeup (s.proc q) a
    · exact .inl (update_of_ne hq ..)
  | move hon' hm =>
    cases hon.symm.trans hon'
    exact .inr (.move hm)
  | acquire hon' hp hl =>
    cases hon.symm.trans hon'
    exact .inr (hp ▸ .acquire hl)
  | release hon' hp =>
    cases hon.symm.trans hon'
    exact .inr (hp ▸ .release)
  | edit hon' he =>
    cases hon.symm.trans hon'
    exact .inr (.edit he)
  | born hon' hp =>
    cases hon.symm.trans hon'
    exact .inr (hp ▸ .born)
  | switch hon' hk =>
    cases hon.symm.trans hon'
    exact .inr (.switch hk)

theorem Steps.pc_other (hst : Steps s c t) (hnot : s.cpu c ≠ .on p) :
    t.pc p = s.pc p ∨ t.pc p = .release p (.user 0) := by
  have hne : ∀ p', s.cpu c = .on p' → p ≠ p' := by
    rintro p' hp' rfl
    exact hnot hp'
  cases hst with
  | move hon | acquire hon | release hon | edit hon | switch hon =>
    exact .inl (update_of_ne (hne _ hon) ..)
  | @born p' q hon hp' =>
    rcases eq_or_ne p q with rfl | hq
    · exact .inr (by simp [update_of_ne (hne _ hon)])
    · exact .inl (by simp [update_of_ne (hne _ hon), update_of_ne hq])
  | _ => exact .inl rfl

namespace Family

variable {p' a : Fin n} {C : Procs n m → ProcAct m → Prop}

theorem no_parent (h : Family s) (hs : Sched s) (hf : Forks s) (hon : s.cpu c = .on p')
    (hfork : (s.pc p').forking = some q) (hnot : s.pc p' ≠ .forkReady q) :
    (s.proc q).parent = none := by
  cases hpar : (s.proc q).parent with
  | none => rfl
  | some a =>
    obtain ⟨c', hc', hpc⟩ := h.named q a hpar (hf.unused c p' q hon hfork)
    have hcc : c = c' := by
      apply hs.same_cpu (q := q)
      · rw [held_of_on hon, ProcPc.held_of_forking hfork]
        exact mem_singleton_self q
      · rw [held_of_on hc', hpc]
        exact mem_singleton_self q
    subst hcc
    rw [hon] at hc'
    cases hc'
    exact absurd hpc hnot

theorem exit_locks (h : Family s) (hs : Sched s) (hst : Steps s c t) (hp : p ≠ 0)
    (hpar : (s.proc q).parent = some p) (hold : (s.proc q).state ≠ .zombie)
    (hnew : (t.proc q).state = .zombie) : s.cpu c = .on q ∧ s.lock p = some c ∧
      ¬((s.proc p).state = .sleeping ∧ (s.proc p).chan = some (.proc p)) := by
  obtain ⟨hon, st, op, hpc, _⟩ := (hst.touched q).zombie hold hnew
  have hk := h.knows q
  rw [hpc] at hk
  have hop : op = p := by
    obtain ⟨_, ho, _⟩ := hk
    rw [hpar] at ho
    rcases ho with ho | ho
    · exact (Option.some.inj ho).symm
    · exact absurd (Option.some.inj ho) hp
  subst hop
  refine ⟨hon, ?_, h.woken c q st op hon hpc⟩
  rw [hs.lock, held_of_on hon, hpc]
  exact mem_cons_self

theorem rely (h : Family s) (hs : Sched s) (hf : Forks s) (hst : Steps s c t)
    (hrest : s.cpu c ≠ .on p) (hp : s.Alive p) : ProcPc.Rely s.proc t.proc p (s.Mine p) where
  gains := by
    intro hp0 q hpar
    rcases (hst.touched q).parent with he | ⟨p', hon, _, _, hx | ⟨_, hx⟩⟩ |
        ⟨_, _, _, _, _, hx⟩ | ⟨_, _, _, _, _, hx⟩
    · rw [← he]
      exact hpar
    · rw [hx] at hpar
      cases hpar
    · rw [hx] at hpar
      cases hpar
      exact absurd hon hrest
    · rw [hx] at hpar
      cases hpar
    · rw [hx] at hpar
      exact absurd (Option.some.inj hpar).symm hp0
  loses := by
    intro q hpar
    have hk : ∀ p', s.cpu c = .on p' → (s.proc q).parent ≠ some p' := by
      intro p' hon he
      rw [hpar] at he
      cases he
      exact hrest hon
    rcases (hst.touched q).parent with he | ⟨p', hon, hfork, hnot, _⟩ | ⟨p', _, hon, hpc, _⟩ |
        ⟨p', _, _, hon, hpc, _⟩
    · rw [he]
      exact hpar
    · rw [h.no_parent hs hf hon hfork hnot] at hpar
      cases hpar
    · have hkn := h.knows p'
      rw [hpc] at hkn
      exact absurd hkn.1 (hk p' hon)
    · have hkn := h.knows p'
      rw [hpc] at hkn
      exact absurd hkn.2.2.1 (hk p' hon)
  parent := by
    intro op ho
    rcases (hst.touched p).parent with he | ⟨p', hon, hfork, _⟩ | ⟨_, _, _, _, hz, _⟩ |
        ⟨_, _, _, _, _, hx⟩
    · rw [he]
      exact ho
    · exact absurd (hf.unused c p' p hon hfork) hp.1
    · exact absurd hz hp.2
    · rw [hx]
      exact .inr rfl
  exits := by
    rintro ⟨c', hc', hl⟩ hp0 q hpar hz
    by_contra hnot
    obtain ⟨hon, hlock, _⟩ := h.exit_locks hs hst hp0 hpar hnot hz
    rw [hlock] at hl
    cases hl
    exact hrest hc'
  asleep := by
    intro hsl
    obtain ⟨hold, hchan⟩ := (hst.touched p).sleeping hrest hsl
    refine ⟨hold, hchan, fun hp0 hc q hpar hz => ?_⟩
    by_contra hnot
    exact (h.exit_locks hs hst hp0 hpar hnot hz).2.2 ⟨hold, hc⟩

/-! ## Parents -/

theorem stays_alive (hs : Sched s) (hf : Forks s) (hst : Steps s c t) (ha : s.Alive q)
    (hnot : ∀ st op, s.pc q ≠ .exitZombie st op) : t.Alive q := by
  refine ⟨fun hu => ?_, fun hz => ?_⟩
  · exact ha.2 (hs.freed hf hst ha.1 hu).1
  · obtain ⟨_, st, op, hpc, _⟩ := (hst.touched q).zombie ha.2 hz
    exact hnot st op hpc

theorem step_alive (h : Family s) (hs : Sched s) (hf : Forks s) (hst : Steps s c t)
    (hpar : (t.proc q).parent = some a) : t.Alive a := by
  have hkeep : s.Alive a → (∀ st op, s.pc a ≠ .exitZombie st op) → t.Alive a :=
    stays_alive hs hf hst
  rcases (hst.touched q).parent with he | ⟨p, hon, _, _, hx | ⟨hpc, hx⟩⟩ | ⟨_, _, _, _, _, hx⟩ |
      ⟨_, _, _, _, _, hx⟩
  · rw [he] at hpar
    refine hkeep (h.alive q a hpar) fun st op hpc => ?_
    have hk := h.knows a
    rw [hpc] at hk
    exact hk.2.2 q hpar
  · rw [hx] at hpar
    cases hpar
  · rw [hx] at hpar
    cases hpar
    refine hkeep ?_ (by simp [hpc])
    have hr := hs.running hon (by rw [hpc]; rfl)
    exact ⟨by simp [hr], by simp [hr]⟩
  · rw [hx] at hpar
    cases hpar
  rw [hx] at hpar
  cases hpar
  refine hkeep h.init.2 fun st op hpc => ?_
  have hk := h.knows 0
  rw [hpc] at hk
  exact hk.1 rfl

theorem step_init (h : Family s) (hs : Sched s) (hf : Forks s) (hst : Steps s c t) :
    (t.proc 0).parent = none ∧ t.Alive 0 := by
  constructor
  · rcases (hst.touched 0).parent with he | ⟨p, hon, hfork, _⟩ | ⟨_, _, _, _, hz, _⟩ |
        ⟨p, _, _, _, hpc, _⟩
    · rw [he]
      exact h.init.1
    · exact absurd (hf.unused c p 0 hon hfork) h.init.2.1
    · exact absurd hz h.init.2.2
    have hk := h.knows p
    rw [hpc] at hk
    have hp := hk.2.2.1
    rw [h.init.1] at hp
    cases hp
  · refine stays_alive hs hf hst h.init.2 fun st op hpc => ?_
    have hk := h.knows 0
    rw [hpc] at hk
    exact hk.1 rfl

theorem step_orphan (h : Family s) (hs : Sched s) (hst : Steps s c t) (hq : q ≠ 0)
    (hu : (t.proc q).state ≠ .unused) : (t.proc q).parent ≠ none := by
  rcases (hst.touched q).parent with he | ⟨p, hon, hfork, _, hx | ⟨_, hx⟩⟩ | ⟨_, _, _, _, _, hx⟩ |
      ⟨_, _, _, _, _, hx⟩
  · rw [he]
    by_cases hold : (s.proc q).state = .unused
    · -- it has just become RUNNABLE, at the end of `fork`
      obtain ⟨p, hon, hpc, _⟩ := (hst.touched q).ready (hs.not_on hold c) hold hu
      rw [h.copied c p q hon hpc]
      simp
    · exact h.orphan q hq hold
  · exact absurd (by rw [hx]; rfl) hu
  · simp [hx]
  · exact absurd (by rw [hx]; rfl) hu
  · simp [hx]

theorem on_other (hs : Sched s) (hf : Forks s) (hst : Steps s c t) (hne : c' ≠ c)
    (hon : t.cpu c' = .on p) : s.cpu c' = .on p ∧ t.pc p = s.pc p := by
  obtain ⟨hon', hpc, _⟩ := Forks.step_other hs hf hst hne hon
  exact ⟨hon', hpc⟩

/-- Whoever is on CPU `c` after its step was there before, or has just been
picked up. -/
theorem on_own (hs : Sched s) (hst : Steps s c t) (hon : t.cpu c = .on p) :
    s.cpu c = .on p ∨ (s.pc p).inside = false ∧ t.pc p = s.pc p := by
  cases hst with
  | wrap | pick | skip | back | leave | switch => simp at hon
  | @dispatch q hc hr =>
    simp only [setCpu_cpu, update_self, CpuPc.on.injEq] at hon
    subst hon
    exact .inr ⟨(hs.ready q (.inl hr)).inside, rfl⟩
  | _ => exact .inl hon

theorem inside_own (hs : Sched s) (hr : Runs s c p (s.pc p) t)
    (hin : (t.pc p).inside = true) (hon' : t.cpu c = .on p) :
    (∃ k, Moves s p (s.pc p) k ∧ t = s.setPc p k) ∨
    (∃ q x k b, Edits s p (s.pc p) q x k b ∧ t = ((s.setProc q x).setPc p k).withBooks b) ∨
    ∃ q, s.pc p = .forkPagetable q ∧ t.pc p = .forkCopy q := by
  have hwf := hs.wf p
  generalize hk : s.pc p = k₀ at hr hwf
  cases hr with
  | move hm => exact .inl ⟨_, hm, rfl⟩
  | acquire =>
    simp only [setPc_pc, update_self] at hin
    rw [hwf.2.2.1] at hin
    cases hin
  | release =>
    simp only [setPc_pc, update_self] at hin
    rw [hwf.1] at hin
    cases hin
  | edit he => exact .inr (.inl ⟨_, _, _, _, he, rfl⟩)
  | born => exact .inr (.inr ⟨_, rfl, by simp⟩)
  | switch => simp at hon'

section

variable (h : Family s) (hs : Sched s) (hf : Forks s) (hst : Steps s c t) {st : Int} {op : Fin n}
include h hs hf hst

theorem step_copied (hon : t.cpu c' = .on p) (hpc : t.pc p = .forkReady q) :
    (t.proc q).parent = some p := by
  rcases eq_or_ne c' c with rfl | hc
  · rcases on_own hs hst hon with hold | ⟨hin, he⟩
    · rcases hst.own hold with hr | hr
      · rw [(hr.proc q).parent]
        exact h.copied c' p q hold (by rw [← hr.pc]; exact hpc)
      rcases inside_own hs hr (by rw [hpc]; rfl) hon with ⟨k, hm, rfl⟩ | ⟨q', x, k, b, he, rfl⟩ |
          ⟨_, _, he⟩
      · simp only [setPc_pc, update_self] at hpc
        subst hpc
        have hn := hm.newborn
        cases hn
      · simp only [withBooks_pc, setPc_pc, update_self] at hpc
        subst hpc
        generalize s.pc p = k₀ at he
        cases he
        simp
      · rw [he] at hpc
        cases hpc
    · rw [← he, hpc] at hin
      cases hin
  · obtain ⟨hold, hpc'⟩ := on_other hs hf hst hc hon
    rw [hpc'] at hpc
    have hlock : s.lock q = some c' := by
      rw [hs.lock, held_of_on hold, hpc]
      exact mem_singleton_self q
    rw [hs.proc_frame hst hlock hc]
    exact h.copied c' p q hold hpc

theorem step_woken (hon : t.cpu c' = .on p) (hpc : t.pc p = .exitZombie st op) :
    ¬((t.proc op).state = .sleeping ∧ (t.proc op).chan = some (.proc op)) := by
  rcases eq_or_ne c' c with rfl | hc
  · rcases on_own hs hst hon with hold | ⟨hin, he⟩
    · rcases hst.own hold with hr | hr
      · have hw := h.woken c' p st op hold (by rw [← hr.pc]; exact hpc)
        rintro ⟨hsl, hchan⟩
        have he := (hr.proc op).same hsl (by simp)
        rw [he] at hsl hchan
        exact hw ⟨hsl, hchan⟩
      rcases inside_own hs hr (by rw [hpc]; rfl) hon with ⟨k, hm, rfl⟩ | ⟨q', x, k, b, he, rfl⟩ |
          ⟨_, _, he⟩
      · simp only [setPc_pc, update_self] at hpc
        subst hpc
        generalize s.pc p = k₀ at hm
        cases hm
      · simp only [withBooks_pc, setPc_pc, update_self] at hpc
        subst hpc
        generalize s.pc p = k₀ at he
        cases he
        simp only [withBooks_proc, setPc_proc, setProc_proc, update_self, Proc.wakeup1]
        split
        · simp
        · rename_i hn
          exact fun hx => hn ⟨hx.2, hx.1⟩
      · rw [he] at hpc
        cases hpc
    · rw [← he, hpc] at hin
      cases hin
  · obtain ⟨hold, hpc'⟩ := on_other hs hf hst hc hon
    rw [hpc'] at hpc
    have hlock : s.lock op = some c' := by
      rw [hs.lock, held_of_on hold, hpc]
      exact mem_cons_self
    rw [hs.proc_frame hst hlock hc]
    exact h.woken c' p st op hold hpc

theorem step_named (hpar : (t.proc q).parent = some a) (hu : (t.proc q).state = .unused) :
    ∃ c', t.cpu c' = .on a ∧ t.pc a = .forkReady q := by
  rcases (hst.touched q).parent with he | ⟨p, hon, hfork, hnot, hx | ⟨hpc, hx⟩⟩ |
      ⟨_, _, _, _, _, hx⟩ | ⟨p, _, _, hon, hpc, hx⟩
  · have hold : (s.proc q).state = .unused := by
      rcases (hst.touched q).unused hu with hold | hx
      · exact hold
      · rw [hx] at hpar
        cases hpar
    rw [he] at hpar
    obtain ⟨c', hon, hpc⟩ := h.named q a hpar hold
    refine ⟨c', ?_⟩
    rcases eq_or_ne c' c with rfl | hc
    · rcases hst.own hon with hr | hr
      · rw [hr.cpu, hr.pc]
        exact ⟨hon, hpc⟩
      rw [hpc] at hr
      cases hr with
      | move hm =>
        cases hm with
        | preempt hk => cases hk
      | edit hed =>
        cases hed
        simp at hu
      | switch hk => cases hk
    · refine ⟨(hst.cpu_frame hc).trans hon, ?_⟩
      rw [← hpc]
      exact (on_other hs hf hst hc ((hst.cpu_frame hc).trans hon)).2
  · rw [hx] at hpar
    cases hpar
  · rw [hx] at hpar
    cases hpar
    refine ⟨c, ?_⟩
    rcases hst.own hon with hr | hr
    · rw [(hr.proc q).parent, h.no_parent hs hf hon hfork hnot] at hx
      cases hx
    rw [hpc] at hr
    cases hr with
    | move hm =>
      cases hm with
      | preempt hk => cases hk
    | edit he =>
      cases he with
      | noMemory => simp [Proc.free] at hx
      | copied => simpa using hon
    | switch hk => cases hk
  · rw [hx] at hpar
    cases hpar
  · rw [hx] at hpar
    cases hpar
    have hk := h.knows p
    rw [hpc] at hk
    rw [hx] at hu
    obtain ⟨c', _, hpc'⟩ := h.named q p hk.2.2.1 hu
    rw [hpc] at hpc'
    cases hpc'

theorem step_gone (ha : ¬t.Alive q) : (t.pc q).idle = true := by
  by_cases hold : s.Alive q
  · -- it has just become ZOMBIE
    have hz : (t.proc q).state = .zombie := by
      by_contra hz
      refine ha ⟨fun hu => ?_, hz⟩
      exact hold.2 (hs.freed hf hst hold.1 hu).1
    obtain ⟨hon, st, op, hpc, _⟩ := (hst.touched q).zombie hold.2 hz
    rcases hst.own hon with hr | hr
    · exact absurd ((hr.proc q).state_of hz (by simp)) hold.2
    rw [hpc] at hr
    cases hr with
    | move hm =>
      cases hm with
      | preempt hk => cases hk
    | edit he =>
      cases he
      simp [ProcPc.idle]
    | switch hk => cases hk
  · have hidle := h.gone q hold
    by_cases hon : s.cpu c = .on q
    · have hends : (s.pc q).ends = true := by
        rcases hs.on c q hon with ⟨hr, _⟩ | ⟨_, he⟩
        · exact absurd ⟨by simp [hr], by simp [hr]⟩ hold
        · exact he
      rcases hst.own hon with hr | hr
      · rw [hr.pc]
        exact hidle
      generalize s.pc q = k₀ at hr hends
      cases hr with
      | move hm => rw [hm.ends_eq.2] at hends; cases hends
      | acquire => cases hends
      | @release _ k =>
        have hk : k.idle = true := ProcPc.idle_of_ends hends
        simpa using hk
      | edit he => cases he <;> cases hends
      | born => cases hends
      | switch hk =>
        cases hk with
        | exit => simp [ProcPc.idle]
        | _ => cases hends
    · rcases hst.pc_other hon with he | he
      · rw [he]
        exact hidle
      · rw [he]
        rfl

theorem step_bed (hsl : (t.proc q).state = .sleeping) :
    (t.pc q = .sleepBack ∧ ∃ a, (t.proc q).chan = some (.addr a)) ∨
    ∃ addr, t.pc q = .waitBack addr := by
  by_cases hon : s.cpu c = .on q
  · have hnot : (s.proc q).state ≠ .sleeping := fun hx => hs.not_waiting hon (.inr hx)
    rcases hst.own hon with hr | hr
    · exact absurd ((hr.proc q).state_of hsl (by simp)) hnot
    generalize s.pc q = k₀ at hr
    cases hr with
    | move | acquire | release | born => exact absurd hsl hnot
    | @edit q' x _ _ _ he =>
      rcases eq_or_ne q q' with rfl | hq
      · exact absurd (he.sleeping (by simpa using hsl)).1 hnot
      · exact absurd (by simpa [update_of_ne hq] using hsl) hnot
    | switch hk =>
      cases hk with
      | yield => simp at hsl
      | sleep => exact .inl ⟨by simp, by simp⟩
      | exit => exact absurd (by simpa using hsl) hnot
      | @wait addr => exact .inr ⟨addr, by simp⟩
  · obtain ⟨hold, hchan⟩ := (hst.touched q).sleeping hon hsl
    have hpc : t.pc q = s.pc q := hs.pc_frame hf hst hon (by simp [hold])
    rw [hpc, hchan]
    exact h.bed q hold

end

/-! ## What the threads know -/

theorem knows_move (hm : Moves s p k k') (hmine : mine ↔ p ∈ k.held p)
    (hnodup : (k.held p).Nodup) (h : k.Knows s.proc p mine) : k'.Knows s.proc p mine := by
  cases hm with
  | exit hp => exact hp
  | wait => exact fun _ hj => absurd hj (Nat.lt_irrefl 0)
  | preempt hk =>
    have hnot : ¬mine := by
      rw [hmine, hk]
      exact not_mem_nil
    exact h.mono hnot
  | exitParent hpar => exact ⟨h, .inl hpar, fun q hq => absurd hq (Nat.not_lt_zero _)⟩
  | reparentEnd hq => exact ⟨h.1, h.2.1, fun q => h.2.2 q (Nat.lt_of_lt_of_le q.isLt hq)⟩
  | reparentChild hpar => exact ⟨h.1, h.2.1, hpar, h.2.2⟩
  | @reparentNext st op q hpar =>
    refine ⟨h.1, h.2.1, fun q' hq' => ?_⟩
    rcases Nat.lt_or_eq_of_le (Nat.le_of_lt_succ hq') with hlt | heq
    · exact h.2.2 q' hlt
    · rw [Fin.ext heq]
      exact hpar
  | waitEnd hq =>
    intro hp
    refine ⟨hmine.mpr (mem_singleton_self p), fun q hpar => ?_⟩
    have hlt := Nat.lt_of_lt_of_le q.isLt hq
    exact (h hp (Nat.zero_lt_of_lt hlt)).2 q hlt hpar
  | waitChild hpar =>
    refine ⟨hpar, fun hp => ⟨hmine.mpr (mem_singleton_self p), fun q' hq' => ?_⟩⟩
    exact (h hp (Nat.zero_lt_of_lt hq')).2 q' hq'
  | @waitNext addr kids q hpar =>
    refine fun hp _ => ⟨hmine.mpr (mem_singleton_self p), fun q' hq' hpar' => ?_⟩
    rcases Nat.lt_or_eq_of_le (Nat.le_of_lt_succ hq') with hlt | heq
    · exact (h hp (Nat.zero_lt_of_lt hlt)).2 q' hlt hpar'
    · rw [Fin.ext heq] at hpar'
      exact absurd hpar' hpar
  | @waitAlive addr q hz =>
    intro hp _
    have hne : q ≠ p := by
      rintro rfl
      simp at hnodup
    refine ⟨⟨(h.2 hp).1, hne⟩, fun q' hq' hpar' => ?_⟩
    rcases Nat.lt_or_eq_of_le (Nat.le_of_lt_succ hq') with hlt | heq
    · exact (h.2 hp).2 q' hlt hpar'
    · rw [Fin.ext heq]
      exact hz
  | _ => trivial

theorem knows_edit (he : Edits s p k q x k' b) (h : k.Knows s.proc p mine) :
    k'.Knows (update s.proc q x) p mine' := by
  have hparent : ∀ q' a, x.parent = (s.proc q).parent →
      ((update s.proc q x q').parent = a ↔ (s.proc q').parent = a) := by
    intro q' a hx
    rcases eq_or_ne q' q with rfl | hq
    · rw [update_self, hx]
    · rw [update_of_ne hq]
  cases he with
  | exitWake => exact h
  | @give st op q =>
    obtain ⟨hp, ho, hpar, hlt⟩ := h
    refine ⟨hp, ?_, fun q' hq' => ?_⟩
    · by_cases hq : p = q
      · rw [hq, update_self]
        exact .inr rfl
      · rw [update_of_ne hq]
        exact ho
    by_cases hq : q' = q
    · rw [hq, update_self]
      exact fun hx => hp (Option.some.inj hx).symm
    rw [update_of_ne hq]
    exact hlt q' (by omega)
  | exitWakeup =>
    have hx := ((s.proc q).woken_wakeup1 q).parent
    obtain ⟨hp, ho, hq⟩ := h
    refine ⟨hp, ?_, fun q' => ?_⟩
    · rw [hparent p _ hx, hparent p _ hx]
      exact ho
    · rw [ne_eq, hparent q' _ hx]
      exact hq q'
  | waitBack => exact fun _ hj => absurd hj (Nat.lt_irrefl 0)
  | _ => trivial

theorem knows_switch (hk : Switches s p k x k') (h : k.Knows s.proc p mine) :
    k'.Knows (update s.proc p x) p mine' := by
  cases hk with
  | @yield k₀ =>
    have hold : ∀ q, (update s.proc p { s.proc p with state := .runnable } q).parent =
        (s.proc q).parent := by
      intro q
      rcases eq_or_ne q p with rfl | hq
      · rw [update_self]
      · rw [update_of_ne hq]
    have hknows : k₀.Knows s.proc p False := h
    have hrely : ProcPc.Rely s.proc
        (update s.proc p { s.proc p with state := .runnable }) p False := {
      gains := fun _ q hq => by rwa [hold] at hq
      loses := fun q hq => by rwa [hold]
      parent := fun op ho => by rwa [hold]
      exits := False.elim
      asleep := by simp }
    exact (hknows.stable hrely False.elim).mono False.elim
  | sleep => trivial
  | exit => trivial
  | @wait addr =>
    intro _
    refine ⟨by simp, fun hp q hpar => ?_⟩
    rcases eq_or_ne q p with rfl | hq
    · simp
    · rw [update_of_ne hq] at hpar ⊢
      exact (h hp).2 q hpar

theorem mine_iff (hs : Sched s) (hon : s.cpu c = .on p) : s.Mine p ↔ p ∈ (s.pc p).held p := by
  rw [← held_of_on hon, ← hs.lock]
  constructor
  · rintro ⟨c', hc', hl⟩
    rw [hs.unique hon (.inl hc')]
    exact hl
  · exact fun hl => ⟨c, hon, hl⟩

omit [NeZero n] in
theorem mine_rests (hr : Rests s t) : t.Mine p = s.Mine p := by
  unfold Mine
  rw [hr.cpu, hr.lock]

theorem rely_rests (hr : Rests s t) : ProcPc.Rely s.proc t.proc p (s.Mine p) where
  gains := fun _ q hq => (hr.proc q).parent.symm.trans hq
  loses := fun q hq => (hr.proc q).parent.trans hq
  parent := fun op ho => by rwa [(hr.proc p).parent]
  exits := fun _ _ q _ hz => (hr.proc q).state_of hz (by simp)
  asleep := by
    intro hsl
    have he := (hr.proc p).same hsl (by simp)
    rw [he] at hsl ⊢
    exact ⟨hsl, rfl, fun _ _ q _ hz => (hr.proc q).state_of hz (by simp)⟩

theorem knows_own (h : Family s) (hs : Sched s) (hon : s.cpu c = .on p)
    (hr : Runs s c p (s.pc p) t) : (t.pc p).Knows t.proc p (t.Mine p) := by
  have hk := h.knows p
  have hmine := mine_iff hs hon
  have hnodup := hs.nodup c
  rw [held_of_on hon] at hnodup
  generalize s.pc p = k₀ at hr hk hmine hnodup
  cases hr with
  | @move _ k' hm =>
    have hkn : k'.Knows s.proc p ((s.setPc p k').Mine p) := knows_move hm hmine hnodup hk
    simpa using hkn
  | @acquire q k hl =>
    have hm : s.Mine p → ((s.setLock q (some c)).setPc p k).Mine p := by
      rintro ⟨c', hc', hlock⟩
      refine ⟨c', hc', ?_⟩
      have hne : p ≠ q := by
        rintro rfl
        rw [hlock] at hl
        cases hl
      simpa [update_of_ne hne] using hlock
    have hkn : k.Knows s.proc p (s.Mine p) := hk
    simpa using hkn.mono hm
  | @release q k =>
    have hm : s.Mine p ∧ q ≠ p → ((s.setLock q none).setPc p k).Mine p := by
      rintro ⟨⟨c', hc', hlock⟩, hne⟩
      exact ⟨c', hc', by simpa [update_of_ne (Ne.symm hne)] using hlock⟩
    have hkn : k.Knows s.proc p (s.Mine p ∧ q ≠ p) := hk
    simpa using hkn.mono hm
  | edit he => simpa using knows_edit he hk
  | born => simp [ProcPc.Knows]
  | switch hsw => simpa using knows_switch hsw hk

theorem step_knows (h : Family s) (hs : Sched s) (hf : Forks s) (hst : Steps s c t) (p : Fin n) :
    (t.pc p).Knows t.proc p (t.Mine p) := by
  by_cases hon : s.cpu c = .on p
  · rcases hst.own hon with hr | hr
    · rw [hr.pc, mine_rests hr]
      exact (h.knows p).stable (rely_rests hr) id
    · exact h.knows_own hs hon hr
  rcases hst.pc_other hon with hpc | hpc
  · rw [hpc]
    by_cases ha : s.Alive p
    · have hm : s.Mine p → t.Mine p := by
        rintro ⟨c', hc', hlock⟩
        have hne : c' ≠ c := by
          rintro rfl
          exact hon hc'
        exact ⟨c', (hst.cpu_frame hne).trans hc', hs.lock_frame hst hlock hne⟩
      exact ((h.knows p).stable (h.rely hs hf hst hon ha) id).mono hm
    · exact .of_idle (h.gone p ha)
  · rw [hpc]
    exact .of_idle rfl

theorem boot : Family (boot : Procs n m) where
  alive := by
    intro q a hq
    unfold Procs.boot at hq
    by_cases h0 : q = 0
    · simp [h0, Proc.free] at hq
    · simp [h0, Proc.free] at hq
  orphan := by
    intro q h0 hq
    simp [Procs.boot, h0, Proc.free] at hq
  init := by simp [Procs.boot, Alive, Proc.free]
  named := by
    intro q a hq
    unfold Procs.boot at hq
    by_cases h0 : q = 0
    · simp [h0, Proc.free] at hq
    · simp [h0, Proc.free] at hq
  copied := by simp [Procs.boot]
  gone := by
    intro q hq
    by_cases h0 : q = 0
    · simp [h0, Procs.boot, Alive] at hq
    · simp [h0, Procs.boot, ProcPc.idle]
  bed := by
    intro q hq
    unfold Procs.boot at hq
    by_cases h0 : q = 0
    · simp [h0] at hq
    · simp [h0, Proc.free] at hq
  woken := by simp [Procs.boot]
  knows := by
    intro p
    refine .of_idle ?_
    by_cases h0 : p = 0
    · simp [h0, Procs.boot, ProcPc.idle]
    · simp [h0, Procs.boot, ProcPc.idle]

theorem step (h : Family s) (hs : Sched s) (hf : Forks s) (hst : Steps s c t) : Family t where
  alive := fun _ _ hq => h.step_alive hs hf hst hq
  orphan := fun _ h0 hq => h.step_orphan hs hst h0 hq
  init := h.step_init hs hf hst
  named := fun _ _ hq hu => h.step_named hs hf hst hq hu
  copied := fun _ _ _ hon hpc => h.step_copied hs hf hst hon hpc
  gone := fun _ hq => h.step_gone hs hf hst hq
  bed := fun _ hq => h.step_bed hs hf hst hq
  woken := fun _ _ _ _ hon hpc => h.step_woken hs hf hst hon hpc
  knows := h.step_knows hs hf hst

theorem reaches (h : Reaches Procs.step C Procs.boot s) : Family s := by
  have hinv : Sched s ∧ Forks s ∧ Family s := by
    apply h.invariant (I := fun s => Sched s ∧ Forks s ∧ Family s) ⟨.boot, .boot, .boot⟩
    rintro u v a ⟨hs, hf, hfam⟩ _ hst
    have hstep := steps_of_step hst
    exact ⟨hs.step hf hstep, hf.step hs hstep, hfam.step hs hf hstep⟩
  exact hinv.2.2

end Family

end Procs

end Xv6.Kernel
