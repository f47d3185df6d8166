import Xv6.Machine.Interrupts
import Mathlib
/-!
# Interrupt state is a property of the thread

`noff` and `intena` are in the CPU.  They belong to the thread on it because a thread is
switched out and in only with one `push_off` outstanding, and takes `intena` with it.
-/

namespace Xv6.Kernel

open Xv6.Lib
open Function (update_eq_self update_of_ne update_self)

namespace Intr

variable {C P L : Type} {s t : Intr C P L} {c d c : C} {p : P}

structure Inv (s : Intr C P L) : Prop where
  noff : ∀ c, (s.cpu c).noff = s.count (s.running c)
  off : ∀ c, 0 < (s.cpu c).noff → (s.cpu c).intr = false
  on : ∀ c p, (s.cpu c).proc = some p → s.state p = .running
  alone : ∀ c d p, (s.cpu c).proc = some p → (s.cpu d).proc = some p → c = d
  saved : ∀ p, s.state p ≠ .running → s.state p ≠ .unused →
    s.count (.proc p) = 1 ∧ ∀ b, s.entry p = some b → s.context p = .sched b
  away : ∀ c, (s.cpu c).proc ≠ none → s.scan c ≠ none
  scan : ∀ c, s.scan c ≠ none → s.count (.sched c) = 1
  intena : ∀ c p b, (s.cpu c).proc = some p → 0 < (s.cpu c).noff → s.entry p = some b →
    (s.cpu c).intena = b

theorem running_of_none (h : (s.cpu c).proc = none) : s.running c = .sched c := by
  rw [running, h, Option.elim_none]

theorem running_of_some (h : (s.cpu c).proc = some p) : s.running c = .proc p := by
  rw [running, h, Option.elim_some]

theorem running_eq_proc_iff : s.running c = .proc p ↔ (s.cpu c).proc = some p := by
  unfold running
  cases (s.cpu c).proc <;> simp

theorem running_eq_sched_iff : s.running c = .sched d ↔ (s.cpu c).proc = none ∧ c = d := by
  unfold running
  cases (s.cpu c).proc <;> simp

theorem init_inv : Inv (init : Intr C P L) where
  noff _ := rfl
  off _ h := absurd h (Nat.lt_irrefl 0)
  on _ _ h := nomatch h
  alone _ _ _ h := nomatch h
  saved _ _ h := absurd rfl h
  away _ h := absurd rfl h
  scan _ h := absurd rfl h
  intena _ _ _ h := nomatch h

namespace Inv

variable {n : Nat} {e : Option Bool} {k : Context} {x : Core P}

theorem running_inj (h : Inv s) (heq : s.running c = s.running d) : c = d := by
  cases hd : (s.cpu d).proc with
  | none =>
    rw [running_of_none hd] at heq
    exact (running_eq_sched_iff.mp heq).2
  | some p =>
    rw [running_of_some hd] at heq
    exact h.alone c d p (running_eq_proc_iff.mp heq) hd

theorem proc_ne_running (h : Inv s) (hp : s.state p ≠ .running) (c : C) :
    Thread.proc p ≠ s.running c :=
  fun heq => hp (h.on c p (running_eq_proc_iff.mp heq.symm))

theorem setOwner [DecidableEq P] [DecidableEq L] (h : Inv s) (l : Spinlock P L) (o : Option C) :
    Inv (s.setOwner l o) :=
  ⟨h.noff, h.off, h.on, h.alone, h.saved, h.away, h.scan, h.intena⟩

theorem setSpinning [DecidableEq C] (h : Inv s) (c : C) (l : Option (Spinlock P L)) :
    Inv (s.setSpinning c l) :=
  ⟨h.noff, h.off, h.on, h.alone, h.saved, h.away, h.scan, h.intena⟩

theorem setScan [DecidableEq C] (h : Inv s) {q : Option P}
    (hnone : q = none → (s.cpu c).proc = none)
    (hsome : q ≠ none → s.count (.sched c) = 1) : Inv (s.setScan c q) := by
  refine ⟨h.noff, h.off, h.on, h.alone, h.saved, ?_, ?_, h.intena⟩
  · intro d hd hq
    change Function.update s.scan c q d = none at hq
    rcases eq_or_ne d c with rfl | hne
    · rw [update_self] at hq
      exact hd (hnone hq)
    · rw [update_of_ne hne] at hq
      exact h.away d hd hq
  · intro d hd
    change Function.update s.scan c q d ≠ none at hd
    rcases eq_or_ne d c with rfl | hne
    · rw [update_self] at hd
      exact hsome hd
    · rw [update_of_ne hne] at hd
      exact h.scan d hd

variable [DecidableEq C] [DecidableEq P] {st : Procstate}

theorem update (h : Inv s) {entry : P → Option Bool}
    (hproc : x.proc = (s.cpu c).proc) (hnoff : x.noff = n) (hoff : 0 < x.noff → x.intr = false)
    (hfree : (s.cpu c).proc = none → s.scan c = none)
    (hother : ∀ p, (s.cpu c).proc ≠ some p → entry p = s.entry p)
    (hself : ∀ p b, (s.cpu c).proc = some p → 0 < x.noff → entry p = some b → x.intena = b) :
    Inv ((s.setCpu c x).setCount (s.running c) n entry) := by
  have hsame : ∀ d, (Function.update s.cpu c x d).proc = (s.cpu d).proc := by
    intro d
    rcases eq_or_ne d c with rfl | hd
    · rw [update_self, hproc]
    · rw [update_of_ne hd]
  have hrun : ∀ d, running ((s.setCpu c x).setCount (s.running c) n entry) d = s.running d :=
    fun d => congrArg (Option.elim · _ _) (hsame d)
  have hcount : ∀ th, th ≠ s.running c → Function.update s.count (s.running c) n th = s.count th :=
    fun th hth => update_of_ne hth ..
  constructor <;> simp only [hrun, setCount_cpu, setCount_count, setCount_entry, setCount_state,
    setCount_context, setCount_scan, setCpu_cpu, setCpu_count, setCpu_state, setCpu_context,
    setCpu_scan, hsame]
  · intro d
    rcases eq_or_ne d c with rfl | hd
    · rw [update_self, update_self, hnoff]
    · rw [hcount _ fun heq => hd (h.running_inj heq), update_of_ne hd, h.noff]
  · intro d
    rcases eq_or_ne d c with rfl | hd
    · rwa [update_self]
    · rw [update_of_ne hd]
      exact h.off d
  · exact h.on
  · exact h.alone
  · intro p hp hu
    have hne := h.proc_ne_running hp c
    rw [hcount _ hne, hother p fun heq => hne (running_of_some heq).symm]
    exact h.saved p hp hu
  · exact h.away
  · intro d hd
    have hne : Thread.sched d ≠ s.running c := by
      intro heq
      obtain ⟨hnone, rfl⟩ := running_eq_sched_iff.mp heq.symm
      exact hd (hfree hnone)
    rw [hcount _ hne]
    exact h.scan d hd
  · intro d p b hp hpos hb
    rcases eq_or_ne d c with rfl | hd
    · rw [update_self] at hpos ⊢
      exact hself p b hp hpos hb
    rw [update_of_ne hd] at hpos ⊢
    have hne : (s.cpu c).proc ≠ some p := fun heq => hd (h.alone d c p hp heq)
    exact h.intena d p b hp hpos ((hother p hne).symm.trans hb)

theorem pushOff (h : Inv s) (hfree : (s.cpu c).proc = none → s.scan c = none)
    (hst : s.pushOff c = some t) : Inv t := by
  obtain ⟨-, hst⟩ := Option.ite_none_right_eq_some.mp hst
  cases hst
  refine h.update rfl (congrArg (· + 1) (h.noff c)) (fun _ => rfl) hfree ?_ ?_
  · intro p hp
    exact if_neg fun hx => hp hx.1
  intro p b hp _ hb
  have hnoff : (s.cpu c).noff = s.count (.proc p) := (h.noff c).trans (by rw [running_of_some hp])
  by_cases h0 : s.count (.proc p) = 0
  · rw [if_pos ⟨hp, h0⟩] at hb
    cases hb
    exact if_pos (hnoff.trans h0)
  · rw [if_neg fun hx => h0 hx.2] at hb
    exact (if_neg (hnoff ▸ h0)).trans (h.intena c p b hp (by omega) hb)

theorem popOff_cases (hst : s.popOff c = some t) :
    0 < (s.cpu c).noff ∧ ∃ x : Core P, x.proc = (s.cpu c).proc ∧ x.intena = (s.cpu c).intena ∧
      x.noff = (s.cpu c).noff - 1 ∧ (x.intr = true ↔ x.noff = 0 ∧ x.intena = true) ∧
      t = (s.setCpu c x).setCount (s.running c) (s.count (s.running c) - 1) s.entry := by
  obtain ⟨x, hx, rfl⟩ := Option.map_eq_some_iff.mp hst
  unfold Core.popOff at hx
  split_ifs at hx with hintr hnoff
  cases hx
  refine ⟨not_lt.mp hnoff, _, ?_, ?_, ?_, ?_, rfl⟩
  · rfl
  · rfl
  · rfl
  · exact decide_eq_true_iff

theorem popOff (h : Inv s) (hfree : (s.cpu c).proc = none → s.scan c = none)
    (hst : s.popOff c = some t) : Inv t := by
  obtain ⟨hpos, x, hproc, hintena, hnoff, hintr, rfl⟩ := popOff_cases hst
  refine h.update hproc (hnoff.trans (congrArg (· - 1) (h.noff c))) ?_ hfree (fun _ _ => rfl) ?_
  · intro hpos'
    exact Bool.eq_false_iff.mpr fun hx => hpos'.ne' (hintr.mp hx).1
  · intro p b hp _ hb
    exact hintena.trans (h.intena c p b hp hpos hb)

theorem change (h : Inv s) (hp : s.state p ≠ .running)
    (hsaved : st ≠ .unused → n = 1 ∧ ∀ b, e = some b → k = .sched b) :
    Inv (((s.setState p st).setContext p k).setCount (.proc p) n
      (Function.update s.entry p e)) := by
  have hcount : ∀ th, th ≠ .proc p → Function.update s.count (.proc p) n th = s.count th :=
    fun th hth => update_of_ne hth ..
  have hne : ∀ c q, (s.cpu c).proc = some q → q ≠ p := by
    rintro c q hq rfl
    exact hp (h.on c q hq)
  constructor <;> simp only [setCount_cpu, setCount_count, setCount_entry, setCount_state,
    setCount_context, setCount_scan, setContext_cpu, setContext_count, setContext_state,
    setContext_context, setContext_scan, setState_cpu, setState_count, setState_state,
    setState_context, setState_scan]
  · intro d
    rw [hcount]
    · exact h.noff d
    · exact (h.proc_ne_running hp d).symm
  · exact h.off
  · intro d q hq
    rw [update_of_ne (hne d q hq)]
    exact h.on d q hq
  · exact h.alone
  · intro q hq hu
    rcases eq_or_ne q p with rfl | hqp
    · rw [update_self] at hu ⊢
      simpa only [update_self] using hsaved hu
    rw [update_of_ne hqp] at hq hu
    rw [hcount _ fun heq => hqp (Thread.proc.inj heq), update_of_ne hqp, update_of_ne hqp]
    exact h.saved q hq hu
  · exact h.away
  · intro d hd
    rw [hcount _ fun heq => by cases heq]
    exact h.scan d hd
  · intro d q b hq hpos hb
    rw [update_of_ne (hne d q hq)] at hb
    exact h.intena d q b hq hpos hb

theorem switch (h : Inv s) (hother : ∀ d q, d ≠ c → (s.cpu d).proc = some q → q ≠ p)
    (hnoff : x.noff = s.count (x.proc.elim (.sched c) .proc)) (hoff : x.intr = false)
    (hproc : ∀ q, x.proc = some q → q = p ∧ st = .running) (hsaved : st ≠ .running →
      s.count (.proc p) = 1 ∧ ∀ b, s.entry p = some b → k = .sched b) (haway : s.scan c ≠ none)
    (hintena : ∀ b, x.proc = some p → s.entry p = some b → x.intena = b) :
    Inv (((s.setState p st).setContext p k).setCpu c x) := by
  constructor <;> simp only [setCpu_cpu, setCpu_count, setCpu_entry, setCpu_state, setCpu_context,
    setCpu_scan, setContext_cpu, setContext_count, setContext_entry, setContext_state,
    setContext_context, setContext_scan, setState_cpu, setState_count, setState_entry,
    setState_state, setState_context, setState_scan]
  · intro d
    unfold running
    simp only [setCpu_cpu, setContext_cpu, setState_cpu]
    rcases eq_or_ne d c with rfl | hd
    · rw [update_self]
      exact hnoff
    · rw [update_of_ne hd]
      exact h.noff d
  · intro d hpos
    rcases eq_or_ne d c with rfl | hd
    · rw [update_self]
      exact hoff
    · rw [update_of_ne hd] at hpos ⊢
      exact h.off d hpos
  · intro d q hq
    rcases eq_or_ne d c with rfl | hd
    · rw [update_self] at hq
      obtain ⟨rfl, hst⟩ := hproc q hq
      rw [update_self, hst]
    · rw [update_of_ne hd] at hq
      rw [update_of_ne (hother d q hd hq)]
      exact h.on d q hq
  · intro d e q hd he
    have hcase : ∀ d, (Function.update s.cpu c x d).proc = some q →
        q = p ∧ d = c ∨ q ≠ p ∧ (s.cpu d).proc = some q := by
      intro d hd
      rcases eq_or_ne d c with rfl | hdc
      · rw [update_self] at hd
        exact .inl ⟨(hproc q hd).1, rfl⟩
      · rw [update_of_ne hdc] at hd
        exact .inr ⟨hother d q hdc hd, hd⟩
    rcases hcase d hd with ⟨hq, rfl⟩ | ⟨hq, hd⟩ <;> rcases hcase e he with ⟨hq', rfl⟩ | ⟨hq', he⟩
    · rfl
    · exact absurd hq hq'
    · exact absurd hq' hq
    · exact h.alone d e q hd he
  · intro q hq hu
    rcases eq_or_ne q p with rfl | hqp
    · rw [update_self] at hq ⊢
      exact hsaved hq
    · rw [update_of_ne hqp] at hq hu ⊢
      exact h.saved q hq hu
  · intro d hd
    rcases eq_or_ne d c with rfl | hdc
    · exact haway
    · rw [update_of_ne hdc] at hd
      exact h.away d hd
  · exact h.scan
  · intro d q b hq hpos hb
    rcases eq_or_ne d c with rfl | hd
    · rw [update_self] at hq ⊢
      obtain ⟨rfl, -⟩ := hproc q hq
      exact hintena b hq hb
    · rw [update_of_ne hd] at hq hpos ⊢
      exact h.intena d q b hq hpos hb

theorem sched [DecidableEq L] (h : Inv s) (hp : (s.cpu c).proc = some p)
    (hst : s.sched c p st = some t) : Inv t := by
  unfold Intr.sched at hst
  split_ifs at hst with hlock hnoff hrunning hintr
  cases hst
  have hnoff := not_not.mp hnoff
  have haway : s.scan c ≠ none := h.away c (hp ▸ Option.some_ne_none p)
  refine h.switch ?_ (hnoff.trans (h.scan c haway).symm) (Bool.eq_false_iff.mpr hintr) ?_ ?_
    haway ?_
  · rintro d q hd hq rfl
    exact hd (h.alone d c q hq hp)
  · exact fun q hq => nomatch hq
  · refine fun _ => ⟨?_, fun b hb => ?_⟩
    · rw [← running_of_some hp, ← h.noff c, hnoff]
    · rw [h.intena c p b hp (by omega) hb]
  · exact fun b hb => nomatch hb

theorem swtch (h : Inv s) (hscan : s.scan c = some p) (hnone : (s.cpu c).proc = none)
    (hp : s.state p = .runnable) : Inv (s.swtch c p) := by
  have hone := h.scan c (hscan ▸ Option.some_ne_none p)
  obtain ⟨hcount, hentry⟩ := h.saved p (by simp [hp]) (by simp [hp])
  have hnoff : (s.cpu c).noff = 1 := by
    rw [h.noff c, running_of_none hnone, hone]
  have hself : (s.setState p .running).setContext p (s.context p) = s.setState p .running := by
    unfold setContext
    rw [setState_context, update_eq_self]
    rfl
  rw [Intr.swtch, ← hself]
  refine h.switch ?_ (hnoff.trans hcount.symm) (h.off c (hnoff ▸ Nat.one_pos)) ?_ ?_ ?_ ?_
  · rintro d q - hq rfl
    rw [h.on d q hq] at hp
    cases hp
  · intro q hq
    exact ⟨(Option.some.inj hq).symm, rfl⟩
  · exact fun hne => absurd rfl hne
  · exact hscan ▸ Option.some_ne_none p
  · intro b _ hb
    simp only [hentry b hb]

theorem acquire_cases {l : Spinlock P L} (hst : s.acquire c l = some t) :
    ∃ u, s.pushOff c = some u ∧ t = u.setSpinning c (some l) := by
  obtain ⟨u, hu, hst⟩ := Option.bind_eq_some_iff.mp hst
  obtain ⟨-, hst⟩ := Option.ite_none_left_eq_some.mp hst
  cases hst
  exact ⟨u, hu, rfl⟩

theorem intr (h : Inv s) (hfree : s.Free c) (h0 : (s.cpu c).noff = 0) (b : Bool) :
    Inv (s.setCpu c { s.cpu c with intr := b }) := by
  have hself : s.setCpu c { s.cpu c with intr := b } =
      (s.setCpu c { s.cpu c with intr := b }).setCount (s.running c) (s.count (s.running c))
        s.entry := by
    unfold setCount
    rw [setCpu_count, update_eq_self]
    rfl
  rw [hself]
  refine h.update rfl (h.noff c) ?_ hfree.2 (fun _ _ => rfl) ?_
  · exact fun hpos => absurd h0 hpos.ne'
  · exact fun p b _ hpos => absurd h0 hpos.ne'

theorem setState (h : Inv s) (hp : s.state p ≠ .running)
    (hst : st ≠ .unused → s.state p ≠ .unused) : Inv (s.setState p st) := by
  have hself : s.setState p st =
      ((s.setState p st).setContext p (s.context p)).setCount (.proc p) (s.count (.proc p))
        (Function.update s.entry p (s.entry p)) := by
    unfold setCount setContext
    simp only [setState_context, setState_count, update_eq_self]
    rfl
  rw [hself]
  exact h.change hp fun hne => h.saved p hp (hst hne)

end Inv

section

variable [DecidableEq C] [DecidableEq P]

theorem count_pushOff (hst : s.pushOff c = some t) {th : Thread C P} (hpos : s.count th ≠ 0) :
    t.count th ≠ 0 := by
  obtain ⟨-, hst⟩ := Option.ite_none_right_eq_some.mp hst
  cases hst
  rw [setCount_count]
  rcases eq_or_ne th (s.running c) with rfl | hne
  · rw [update_self]
    exact Nat.succ_ne_zero _
  · rwa [update_of_ne hne]

structure Kept (s t : Intr C P L) : Prop where
  inv : Inv t
  pops : ∀ p, s.count (.proc p) ≠ 0 → t.count (.proc p) = 0 →
    ∃ c u, Inv u ∧ u.popOff c = some t ∧ (u.cpu c).proc = some p ∧ u.entry = s.entry

namespace Inv

variable {u : Intr C P L} {b : Bool}

theorem kept (ht : Inv t) (hpos : ∀ th, s.count th ≠ 0 → t.count th ≠ 0) : Kept s t :=
  ⟨ht, fun _ hp h0 => absurd h0 (hpos _ hp)⟩

theorem kept_popOff (h : Inv u)
    (hfree : (u.cpu c).proc = none → u.scan c = none) (hst : u.popOff c = some t)
    (hcount : u.count = s.count) (hentry : u.entry = s.entry) : Kept s t := by
  refine ⟨h.popOff hfree hst, fun p hpos h0 => ⟨c, u, h, hst, ?_, hentry⟩⟩
  by_contra hp
  obtain ⟨-, x, -, -, -, -, rfl⟩ := popOff_cases hst
  have hne : Thread.proc p ≠ u.running c := fun heq => hp (running_eq_proc_iff.mp heq.symm)
  rw [setCount_count, update_of_ne hne, setCpu_count, hcount] at h0
  exact hpos h0

theorem step [DecidableEq L] (h : Inv s) (a : IntrAct C P L) (hst : s.step a = some t) :
    Kept s t := by
  cases a with
  | pushOff c =>
    obtain ⟨hfree, hst⟩ := Option.ite_none_right_eq_some.mp hst
    exact (h.pushOff hfree.2 hst).kept fun _ => count_pushOff hst
  | popOff c =>
    obtain ⟨hfree, hst⟩ := Option.ite_none_right_eq_some.mp hst
    exact h.kept_popOff hfree.2 hst rfl rfl
  | acquire c l =>
    obtain ⟨hfree, hst⟩ := Option.ite_none_right_eq_some.mp hst
    obtain ⟨u, hu, rfl⟩ := acquire_cases hst
    exact ((h.pushOff hfree.2 hu).setSpinning c _).kept fun _ => count_pushOff hu
  | take c =>
    obtain ⟨l, -, hst⟩ := Option.bind_eq_some_iff.mp hst
    obtain ⟨-, hst⟩ := Option.ite_none_right_eq_some.mp hst
    cases hst
    exact ((h.setOwner l _).setSpinning c none).kept fun _ => id
  | release c l =>
    obtain ⟨hfree, hst⟩ := Option.ite_none_right_eq_some.mp hst
    obtain ⟨-, hst⟩ := Option.ite_none_right_eq_some.mp hst
    exact (h.setOwner l none).kept_popOff hfree.2 hst rfl rfl
  | intrOn c =>
    obtain ⟨hfree, hst⟩ := Option.ite_none_right_eq_some.mp hst
    cases hst
    exact (h.intr hfree.1 hfree.2 true).kept fun _ => id
  | intrOff c =>
    obtain ⟨hfree, hst⟩ := Option.ite_none_right_eq_some.mp hst
    cases hst
    exact (h.intr hfree.1 hfree.2 false).kept fun _ => id
  | sched c st =>
    obtain ⟨-, hst⟩ := Option.ite_none_right_eq_some.mp hst
    obtain ⟨p, hp, hst⟩ := Option.bind_eq_some_iff.mp hst
    refine (h.sched hp hst).kept fun th hth => ?_
    unfold Intr.sched at hst
    split_ifs at hst
    cases hst
    exact hth
  | wakeup c p =>
    obtain ⟨hp, hst⟩ := Option.ite_none_right_eq_some.mp hst
    cases hst
    exact (h.setState (by simp [hp.2]) fun _ => by simp [hp.2]).kept fun _ => id
  | freeproc c p =>
    obtain ⟨hp, hst⟩ := Option.ite_none_right_eq_some.mp hst
    cases hst
    exact (h.setState (by simp [hp.2]) fun hne => absurd rfl hne).kept fun _ => id
  | fork c p =>
    obtain ⟨hp, hst⟩ := Option.ite_none_right_eq_some.mp hst
    cases hst
    refine kept (h.change (by simp [hp.2]) fun _ => ⟨rfl, fun b hb => nomatch hb⟩) fun th hth => ?_
    rw [setCount_count]
    rcases eq_or_ne th (.proc p) with rfl | hne
    · rw [update_self]
      exact Nat.one_ne_zero
    · rwa [update_of_ne hne]
  | scan c p =>
    obtain ⟨⟨hfree, hnone, h0⟩, hst⟩ := Option.ite_none_right_eq_some.mp hst
    obtain ⟨v, hv, rfl⟩ := Option.map_eq_some_iff.mp hst
    obtain ⟨u, hu, rfl⟩ := acquire_cases hv
    have hone : u.count (.sched c) = 1 := by
      obtain ⟨-, hu⟩ := Option.ite_none_right_eq_some.mp hu
      cases hu
      have hcount := h.noff c
      rw [running_of_none hnone, h0] at hcount
      rw [setCount_count, running_of_none hnone, update_self, ← hcount]
    have hspin := (h.pushOff hfree.2 hu).setSpinning c (some (.proc p))
    exact kept (hspin.setScan (fun hx => nomatch hx) fun _ => hone) fun _ => count_pushOff hu
  | swtch c =>
    obtain ⟨p, hscan, hst⟩ := Option.bind_eq_some_iff.mp hst
    obtain ⟨⟨-, hnone, hp⟩, hst⟩ := Option.ite_none_right_eq_some.mp hst
    cases hst
    exact (h.swtch hscan hnone hp).kept fun _ => id
  | leave c =>
    obtain ⟨p, hscan, hst⟩ := Option.bind_eq_some_iff.mp hst
    obtain ⟨⟨-, hnone⟩, hst⟩ := Option.ite_none_right_eq_some.mp hst
    obtain ⟨-, hst⟩ := Option.ite_none_right_eq_some.mp hst
    have hclear := h.setScan (q := none) (fun _ => hnone) fun hx => absurd rfl hx
    refine (hclear.setOwner _ none).kept_popOff (fun _ => ?_) hst rfl rfl
    exact update_self ..

theorem popOff_intr (h : Inv s) (hst : s.popOff c = some t)
    (hp : (s.cpu c).proc = some p) (h0 : t.count (.proc p) = 0) (hb : s.entry p = some b) :
    (t.cpu c).proc = some p ∧ (t.cpu c).intr = b := by
  have hcount := h.noff c
  rw [running_of_some hp] at hcount
  obtain ⟨hpos, x, hproc, hintena, hnoff, hintr, rfl⟩ := popOff_cases hst
  rw [setCount_count, running_of_some hp, update_self] at h0
  rw [h.intena c p b hp hpos hb] at hintena
  rw [setCount_cpu, setCpu_cpu, update_self, Bool.eq_iff_iff, hintr, hintena]
  exact ⟨hproc.trans hp, and_iff_right (by omega)⟩

end Inv

end

variable [DecidableEq C] [DecidableEq P] [DecidableEq L]

/-- `noff` belongs to the thread on the CPU, interrupts are off while it is not 0, and
when the count of a process is 0 again, interrupts are as they were before. -/
theorem interrupts_of_thread (h : Reaches step (fun _ _ => True) (init : Intr C P L) s) :
    (∀ c, (s.cpu c).noff = s.count (s.running c)) ∧
      (∀ c, 0 < (s.cpu c).noff → (s.cpu c).intr = false) ∧
      ∀ a t c p b, s.step a = some t → t.running c = .proc p → s.count (.proc p) ≠ 0 →
        t.count (.proc p) = 0 → s.entry p = some b → (t.cpu c).intr = b := by
  have hinv : Inv s := h.invariant init_inv fun u v a hu _ hst => (hu.step a hst).inv
  refine ⟨hinv.noff, hinv.off, fun a t d p b hst hrun hpos h0 hb => ?_⟩
  have hkept := hinv.step a hst
  obtain ⟨c, u, hu, hut, hp, hentry⟩ := hkept.pops p hpos h0
  obtain ⟨hproc, hintr⟩ := hu.popOff_intr hut hp h0 (hentry ▸ hb)
  obtain rfl := hkept.inv.alone d c p (running_eq_proc_iff.mp hrun) hproc
  exact hintr

def migration : List (IntrAct (Fin 2) Unit Unit) :=
  [.acquire 0 (.proc ()), .take 0, .fork 0 (), .release 0 (.proc ()),
    .scan 0 (), .take 0, .swtch 0, .release 0 (.proc ()), .intrOn 0,
    .acquire 0 (.proc ()), .take 0, .sched 0 .runnable, .leave 0, .scan 1 (), .take 1, .swtch 1]

theorem interrupts_after_migration :
    ∃ s t : Intr (Fin 2) Unit Unit, Reaches step (fun _ _ => True) init s ∧
      s.step (.release 1 (.proc ())) = some t ∧ (t.cpu 1).intr = true := by
  have hrun : (exec step (fun _ _ => true) init migration).map (fun s =>
      (s.count (.proc ()), s.entry (), (s.step (.release 1 (.proc ()))).map fun t =>
        (t.running 1, t.count (.proc ())))) = some (1, some true, some (.proc (), 0)) := by
    decide +kernel
  obtain ⟨s, hs, hfacts⟩ := Option.map_eq_some_iff.mp hrun
  simp only [Prod.mk.injEq] at hfacts
  obtain ⟨hcount, hentry, hlast⟩ := hfacts
  obtain ⟨t, ht, hfacts⟩ := Option.map_eq_some_iff.mp hlast
  simp only [Prod.mk.injEq] at hfacts
  have hreach := Reaches.exec (C := fun _ _ => True) .refl (fun _ _ _ _ => trivial) hs
  exact ⟨s, t, hreach, ht, (interrupts_of_thread hreach).2.2 _ t 1 () true ht hfacts.1
    (hcount ▸ Nat.one_ne_zero) hfacts.2 hentry⟩

end Intr

end Xv6.Kernel
