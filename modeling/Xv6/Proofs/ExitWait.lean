import Xv6.Proofs.Family
import Mathlib.Data.Int.DivMod
/-!
# `exit` and `wait`

As long as pids do not wrap, each is given out once, so the pids that exited
and the pids that `wait` returned can be compared: every process that exits is
returned once, by its parent.
-/

namespace Xv6.Kernel

open Xv6.Lib Function List

def ProcPc.numbered {n : Nat} : ProcPc n → Option (Fin n)
  | .forkTrapframe q | .forkPagetable q | .forkCopy q | .forkReady q => some q
  | _ => none

theorem ProcPc.forking_of_numbered {n : Nat} {k : ProcPc n} {q : Fin n}
    (h : k.numbered = some q) : k.forking = some q := by
  cases k <;> first | exact h | cases h

namespace Procs

variable {n m : Nat} {s t : Procs n m} {c : Fin m} {p q : Fin n} {x : Proc n}
  {C : Procs n m → ProcAct m → Prop}

structure Pids (s : Procs n m) : Prop where
  next : s.nextpid = s.pids + 1
  range : ∀ q, 0 ≤ (s.proc q).pid ∧ (s.proc q).pid ≤ s.pids
  inj : ∀ q q', (s.proc q).pid = (s.proc q').pid → (s.proc q).pid ≠ 0 → q = q'
  used : ∀ q, (s.proc q).state ≠ .unused → (s.proc q).pid ≠ 0
  numbered : ∀ c p q, s.cpu c = .on p → (s.pc p).numbered = some q → (s.proc q).pid ≠ 0

structure History (s : Procs n m) : Prop where
  zombie : ∀ q, (s.proc q).state = .zombie →
    ((s.proc q).pid, (s.proc q).xstate) ∈ s.exits ∧ (s.proc q).pid ∉ s.waits.map Reap.pid
  fresh : ∀ q, (s.proc q).pid ≠ 0 → (s.proc q).state ≠ .zombie →
    (s.proc q).pid ∉ s.exits.map Prod.fst
  known : ∀ e ∈ s.exits, 0 < e.1 ∧ e.1 ≤ s.pids
  once : (s.exits.map Prod.fst).Nodup
  returned : (s.waits.map Reap.pid).Nodup
  accounted : ∀ e ∈ s.exits,
    (∃ q, (s.proc q).state = .zombie ∧ (s.proc q).pid = e.1 ∧ (s.proc q).xstate = e.2) ∨
    e.1 ∈ s.waits.map Reap.pid
  status : ∀ w ∈ s.waits, ∃ st, (w.pid, st) ∈ s.exits ∧
    w.status = if w.addr = true then some st else none

/-- The step changes no pid and no exit status, makes no ZOMBIE and frees
none. -/
structure Quiet (s t : Procs n m) : Prop where
  books : t.books = s.books
  pid : ∀ q, (t.proc q).pid = (s.proc q).pid
  xstate : ∀ q, (t.proc q).xstate = (s.proc q).xstate
  zombie : ∀ q, (t.proc q).state = .zombie ↔ (s.proc q).state = .zombie

theorem Quiet.of_proc (hproc : t.proc = s.proc) (hb : t.books = s.books) : Quiet s t where
  books := hb
  pid := fun _ => by rw [hproc]
  xstate := fun _ => by rw [hproc]
  zombie := fun _ => by rw [hproc]

theorem Quiet.of_update (hproc : t.proc = update s.proc q x) (hb : t.books = s.books)
    (hpid : x.pid = (s.proc q).pid) (hx : x.xstate = (s.proc q).xstate)
    (hz : x.state = .zombie ↔ (s.proc q).state = .zombie) : Quiet s t := by
  have hcase : ∀ q', t.proc q' = s.proc q' ∨ q' = q ∧ t.proc q' = x := by
    intro q'
    rw [hproc]
    rcases eq_or_ne q' q with rfl | hq
    · exact .inr ⟨rfl, update_self ..⟩
    · exact .inl (update_of_ne hq ..)
  refine ⟨hb, fun q' => ?_, fun q' => ?_, fun q' => ?_⟩
  · rcases hcase q' with he | ⟨rfl, he⟩
    · rw [he]
    · rw [he, hpid]
  · rcases hcase q' with he | ⟨rfl, he⟩
    · rw [he]
    · rw [he, hx]
  · rcases hcase q' with he | ⟨rfl, he⟩
    · rw [he]
    · rw [he, hz]

theorem Quiet.of_woken (hproc : t.proc = update s.proc q x) (hb : t.books = s.books)
    (hw : (s.proc q).Woken x) : Quiet s t := by
  refine .of_update hproc hb (by rw [hw.eq]) (by rw [hw.eq]) ?_
  refine ⟨fun hx => hw.state_of hx (by simp), fun hz => ?_⟩
  rcases hw.state with he | ⟨hs, _⟩
  · exact he.trans hz
  · simp [hs] at hz

namespace History

section

variable (h : History s) {i st : Int} {w : Reap n}
include h

theorem quiet (hq : Quiet s t) : History t := by
  have hexits : t.exits = s.exits := congrArg Books.exits hq.books
  have hwaits : t.waits = s.waits := congrArg Books.waits hq.books
  have hpids : t.pids = s.pids := congrArg Books.pids hq.books
  refine ⟨fun q hz => ?_, fun q hp hz => ?_, ?_, ?_, ?_, fun e he => ?_, ?_⟩
  · rw [hq.pid, hq.xstate, hexits, hwaits]
    exact h.zombie q ((hq.zombie q).mp hz)
  · rw [hq.pid] at hp ⊢
    rw [hexits]
    exact h.fresh q hp fun hz' => hz ((hq.zombie q).mpr hz')
  · rw [hexits, hpids]
    exact h.known
  · rw [hexits]
    exact h.once
  · rw [hwaits]
    exact h.returned
  · rw [hexits] at he
    rw [hwaits]
    refine (h.accounted e he).imp_left fun ⟨q, hz, hp, hx⟩ => ⟨q, (hq.zombie q).mpr hz, ?_, ?_⟩
    · rw [hq.pid, hp]
    · rw [hq.xstate, hx]
  · rw [hexits, hwaits]
    exact h.status

theorem exited_of_returned (hi : i ∈ s.waits.map Reap.pid) : i ∈ s.exits.map Prod.fst := by
  obtain ⟨w, hw, rfl⟩ := mem_map.mp hi
  obtain ⟨st, hst, _⟩ := h.status w hw
  exact mem_map.mpr ⟨_, hst, rfl⟩

theorem renumber (hproc : t.proc = update s.proc q x)
    (hexits : t.exits = s.exits) (hwaits : t.waits = s.waits) (hpids : s.pids ≤ t.pids)
    (hs : (s.proc q).state ≠ .zombie) (hx : x.state ≠ .zombie)
    (hpid : x.pid ≠ 0 → x.pid ∉ s.exits.map Prod.fst) : History t := by
  have hself : t.proc q = x := by rw [hproc, update_self]
  have hother : ∀ q', q' ≠ q → t.proc q' = s.proc q' := by
    intro q' hq
    rw [hproc, update_of_ne hq]
  refine ⟨fun q' hz => ?_, fun q' hp hz => ?_, fun e he => ?_, ?_, ?_, fun e he => ?_, ?_⟩
  · have hq : q' ≠ q := by
      rintro rfl
      rw [hself] at hz
      exact hx hz
    rw [hother q' hq] at hz ⊢
    rw [hexits, hwaits]
    exact h.zombie q' hz
  · rw [hexits]
    rcases eq_or_ne q' q with rfl | hq
    · rw [hself] at hp ⊢
      exact hpid hp
    · rw [hother q' hq] at hp hz ⊢
      exact h.fresh q' hp hz
  · rw [hexits] at he
    have hk := h.known e he
    omega
  · rw [hexits]
    exact h.once
  · rw [hwaits]
    exact h.returned
  · rw [hexits] at he
    rw [hwaits]
    refine (h.accounted e he).imp_left fun ⟨q', hz, hp, hst⟩ => ⟨q', ?_⟩
    have hq : q' ≠ q := by
      rintro rfl
      exact hs hz
    rw [hother q' hq]
    exact ⟨hz, hp, hst⟩
  · rw [hexits, hwaits]
    exact h.status

theorem exit (hp : Pids s) (hs : (s.proc p).state = .running)
    (hproc : t.proc = update s.proc p { s.proc p with xstate := st, state := .zombie })
    (hexits : t.exits = s.exits ++ [((s.proc p).pid, st)]) (hwaits : t.waits = s.waits)
    (hpids : t.pids = s.pids) : History t := by
  have hself : t.proc p = { s.proc p with xstate := st, state := .zombie } := by
    rw [hproc, update_self]
  have hother : ∀ q', q' ≠ p → t.proc q' = s.proc q' := by
    intro q' hq
    rw [hproc, update_of_ne hq]
  have hpid : (s.proc p).pid ≠ 0 := hp.used p (by simp [hs])
  have hnew : (s.proc p).pid ∉ s.exits.map Prod.fst := h.fresh p hpid (by simp [hs])
  have hmap : t.exits.map Prod.fst = s.exits.map Prod.fst ++ [(s.proc p).pid] := by
    rw [hexits, map_append]
    rfl
  refine ⟨fun q hz => ?_, fun q hq hz => ?_, fun e he => ?_, ?_, ?_, fun e he => ?_, fun w hw => ?_⟩
  · rw [hwaits, hexits]
    rcases eq_or_ne q p with rfl | hq
    · rw [hself]
      exact ⟨mem_append_right _ (mem_singleton_self _),
        fun hi => hnew (h.exited_of_returned hi)⟩
    · rw [hother q hq] at hz ⊢
      exact ⟨mem_append_left _ (h.zombie q hz).1, (h.zombie q hz).2⟩
  · have hqp : q ≠ p := by
      rintro rfl
      rw [hself] at hz
      exact hz rfl
    rw [hother q hqp] at hq hz ⊢
    rw [hmap, mem_append, mem_singleton]
    rintro (hi | hi)
    · exact h.fresh q hq hz hi
    · exact hqp (hp.inj q p hi hq)
  · rw [hexits, mem_append, mem_singleton] at he
    rw [hpids]
    rcases he with he | rfl
    · exact h.known e he
    · have hr := hp.range p
      exact ⟨by simp only; omega, hr.2⟩
  · rw [hmap]
    exact nodup_append.mpr ⟨h.once, nodup_singleton _, fun a ha b hb => by
      rw [mem_singleton.mp hb]
      exact fun hab => hnew (hab ▸ ha)⟩
  · rw [hwaits]
    exact h.returned
  · rw [hexits, mem_append, mem_singleton] at he
    rw [hwaits]
    rcases he with he | rfl
    · refine (h.accounted e he).imp_left fun ⟨q', hz, hpq, hst⟩ => ⟨q', ?_⟩
      have hq : q' ≠ p := by
        rintro rfl
        rw [hs] at hz
        cases hz
      rw [hother q' hq]
      exact ⟨hz, hpq, hst⟩
    · exact .inl ⟨p, by rw [hself], by rw [hself], by rw [hself]⟩
  · rw [hwaits] at hw
    obtain ⟨st', hst, hor⟩ := h.status w hw
    exact ⟨st', by rw [hexits]; exact mem_append_left _ hst, hor⟩

theorem reap (hp : Pids s) (hz : (s.proc q).state = .zombie)
    (hproc : t.proc = update s.proc q .free) (hexits : t.exits = s.exits)
    (hwaits : t.waits = s.waits ++ [w]) (hpids : t.pids = s.pids) (hw : w.pid = (s.proc q).pid)
    (hst : w.status = if w.addr = true then some (s.proc q).xstate else none) : History t := by
  have hself : t.proc q = .free := by rw [hproc, update_self]
  have hother : ∀ q', q' ≠ q → t.proc q' = s.proc q' := by
    intro q' hq
    rw [hproc, update_of_ne hq]
  have hmap : t.waits.map Reap.pid = s.waits.map Reap.pid ++ [(s.proc q).pid] := by
    rw [hwaits, map_append, map_singleton, hw]
  obtain ⟨hin, hout⟩ := h.zombie q hz
  refine ⟨fun q' hz' => ?_, fun q' hq' hz' => ?_, ?_, ?_, ?_, fun e he => ?_, fun w' hw' => ?_⟩
  · have hq : q' ≠ q := by
      rintro rfl
      rw [hself] at hz'
      cases hz'
    rw [hother q' hq] at hz' ⊢
    rw [hexits, hmap, mem_append, mem_singleton]
    refine ⟨(h.zombie q' hz').1, ?_⟩
    rintro (hi | hi)
    · exact (h.zombie q' hz').2 hi
    · exact hq (hp.inj q' q hi (hp.used q' (by simp [hz'])))
  · have hq : q' ≠ q := by
      rintro rfl
      rw [hself] at hq'
      exact hq' rfl
    rw [hother q' hq] at hq' hz' ⊢
    rw [hexits]
    exact h.fresh q' hq' hz'
  · rw [hexits, hpids]
    exact h.known
  · rw [hexits]
    exact h.once
  · rw [hmap]
    exact nodup_append.mpr ⟨h.returned, nodup_singleton _, fun a ha b hb => by
      rw [mem_singleton.mp hb]
      exact fun hab => hout (hab ▸ ha)⟩
  · rw [hexits] at he
    rw [hmap, mem_append, mem_singleton]
    rcases h.accounted e he with ⟨q', hz', hpq, hx⟩ | hi
    · rcases eq_or_ne q' q with rfl | hq
      · exact .inr (.inr hpq.symm)
      · exact .inl ⟨q', by rw [hother q' hq]; exact ⟨hz', hpq, hx⟩⟩
    · exact .inr (.inl hi)
  · rw [hwaits, mem_append, mem_singleton] at hw'
    rw [hexits]
    rcases hw' with hw' | rfl
    · exact h.status w' hw'
    · exact ⟨(s.proc q).xstate, by rw [hw]; exact hin, hst⟩

end

end History

variable [NeZero n]

/-- The edits that `wait` and `allocpid` do notice. -/
inductive Notable (s : Procs n m) (p : Fin n) : Fin n → Proc n → ProcPc n → Books n → Prop where
  | pid {q : Fin n} {k : ProcPc n} : (s.proc q).state = .unused →
      Notable s p q { s.proc q with pid := s.nextpid } k
        { s.books with nextpid := Int.bmod (s.nextpid + 1) (2 ^ 32), pids := s.pids + 1 }
  | free {q : Fin n} {k : ProcPc n} : (s.proc q).state = .unused → Notable s p q .free k s.books
  | zombie {st : Int} {k : ProcPc n} : (s.proc p).state = .running →
      Notable s p p { s.proc p with xstate := st, state := .zombie } k
        { s.books with exits := s.exits ++ [((s.proc p).pid, st)] }
  | reap {addr : Bool} {q : Fin n} : s.pc p = .waitLook addr q → (s.proc q).state = .zombie →
      (s.proc q).parent = some p →
      Notable s p q .free (.release q (.release p (.user (s.proc q).pid)))
        { s.books with
          waits := s.waits ++
            [⟨p, (s.proc q).pid, addr, if addr = true then some (s.proc q).xstate else none⟩] }

theorem quiet_or_notable (hs : Sched s) (hf : Forks s) (hfam : Family s) (hst : Steps s c t) :
    Quiet s t ∨ ∃ p q x k b, Notable s p q x k b ∧ t.proc = update s.proc q x ∧
      t.pc p = k ∧ t.books = b := by
  cases hst with
  | dispatch _ hr => exact .inl (.of_update rfl rfl rfl rfl (by simp [hr]))
  | visit => exact .inl (.of_woken rfl rfl (Proc.woken_wakeup _ _))
  | @edit p q x k b hon he =>
    have hunused : (s.pc p).forking = some q → (s.proc q).state = .unused := hf.unused c p q hon
    have hknows := hfam.knows p
    have hrun : (s.pc p).ends = false → (s.proc p).state = .running := hs.running hon
    generalize hpc : s.pc p = k₀ at he hunused hknows hrun
    cases he with
    | kill =>
      refine .inl (.of_update rfl rfl rfl rfl ?_)
      unfold Proc.kill
      by_cases hsl : (s.proc q).state = .sleeping
      · simp [hsl]
      · simp [hsl]
    | pid => exact .inr ⟨p, q, _, _, _, .pid (hunused rfl), rfl, update_self .., rfl⟩
    | noPagetable => exact .inr ⟨p, q, _, _, _, .free (hunused rfl), rfl, update_self .., rfl⟩
    | noMemory => exact .inr ⟨p, q, _, _, _, .free (hunused rfl), rfl, update_self .., rfl⟩
    | ready => exact .inl (.of_update rfl rfl rfl rfl (by simp [hunused rfl]))
    | exitWake | exitWakeup => exact .inl (.of_woken rfl rfl (Proc.woken_wakeup1 _ _))
    | zombie => exact .inr ⟨p, p, _, _, _, .zombie (hrun rfl), rfl, update_self .., rfl⟩
    | reap hz => exact .inr ⟨p, q, _, _, _, .reap hpc hz hknows.1, rfl, update_self .., rfl⟩
    | _ => exact .inl (.of_update rfl rfl rfl rfl Iff.rfl)
  | @switch p x k hon hk =>
    have hrun : (s.pc p).ends = false → (s.proc p).state = .running := hs.running hon
    generalize s.pc p = k₀ at hk hrun
    cases hk with
    | exit => exact .inl (.of_update rfl rfl rfl rfl Iff.rfl)
    | _ => exact .inl (.of_update rfl rfl rfl rfl (by simp [hrun rfl]))
  | _ => exact .inl (.of_proc rfl rfl)

namespace Pids

theorem boot : Pids (boot : Procs n m) where
  next := rfl
  range := by
    intro q
    by_cases h0 : q = 0
    · simp [h0, Procs.boot]
    · simp [h0, Procs.boot, Proc.free]
  inj := by
    intro q q' he hne
    by_cases h0 : q = 0
    · by_cases h0' : q' = 0
      · rw [h0, h0']
      · simp [Procs.boot, h0, h0', Proc.free] at he
    · simp [Procs.boot, h0, Proc.free] at hne
  used := by
    intro q hq
    by_cases h0 : q = 0
    · simp [Procs.boot, h0]
    · simp [Procs.boot, h0, Proc.free] at hq
  numbered := by simp [Procs.boot]

theorem step_numbered (h : Pids s) (hs : Sched s) (hf : Forks s) (hst : Steps s c t) {c' : Fin m}
    (hon : t.cpu c' = .on p) (hk : (t.pc p).numbered = some q) : (t.proc q).pid ≠ 0 := by
  have hin := ProcPc.inside_of_forking (ProcPc.forking_of_numbered hk)
  rcases eq_or_ne c' c with rfl | hc
  · rcases Family.on_own hs hst hon with hold | ⟨hout, he⟩
    · rcases hst.own hold with hr | hr
      · have hp := h.numbered c' p q hold (by rw [← hr.pc]; exact hk)
        rcases hr.proc q with he | ⟨_, he⟩
        · rwa [he]
        · rwa [he]
      have hold' := h.numbered c' p
      rcases Family.inside_own hs hr hin hon with ⟨k, hm, rfl⟩ | ⟨q', x, k, b, he, rfl⟩ |
          ⟨q', hpc, he⟩
      · simp only [setPc_pc, update_self] at hk
        generalize s.pc p = k₀ at hm hold'
        cases hm with
        | trapframe => exact hold' q hold hk
        | _ => cases hk
      · simp only [withBooks_pc, setPc_pc, update_self] at hk
        generalize s.pc p = k₀ at he hold'
        cases he with
        | pid =>
          cases hk
          simp only [withBooks_proc, setPc_proc, setProc_proc, update_self]
          rw [h.next]
          omega
        | copied =>
          cases hk
          simpa using hold' q hold rfl
        | _ => cases hk
      · rw [he] at hk
        cases hk
        have hproc : t.proc = s.proc := by
          rw [hpc] at hr
          cases hr with
          | move hm => rfl
          | edit hed =>
            cases hed
            simp at he
          | born => rfl
          | switch hsw => cases hsw
        rw [hproc]
        exact hold' q hold (by rw [hpc]; rfl)
    · rw [← he, hin] at hout
      cases hout
  · obtain ⟨hold, hpc, hframe⟩ := Forks.step_other hs hf hst hc hon
    rw [hpc] at hk
    rw [(hframe q (ProcPc.forking_of_numbered hk)).1]
    exact h.numbered c' p q hold hk

theorem step_used (h : Pids s) (hs : Sched s) (hst : Steps s c t)
    (hpid : ∀ q, (s.proc q).pid ≠ 0 → (t.proc q).state ≠ .unused → (t.proc q).pid ≠ 0)
    (hq : (t.proc q).state ≠ .unused) : (t.proc q).pid ≠ 0 := by
  by_cases hold : (s.proc q).state = .unused
  · obtain ⟨p, hon, hpc, hx⟩ := (hst.touched q).ready (hs.not_on hold c) hold hq
    rw [hx]
    exact h.numbered c p q hon (by rw [hpc]; rfl)
  · exact hpid q (h.used q hold) hq

theorem step (h : Pids s) (hs : Sched s) (hf : Forks s) (hfam : Family s) (hst : Steps s c t)
    (hmax : t.pids < 2 ^ 31 - 1) : Pids t := by
  have hnumbered : ∀ c p q, t.cpu c = .on p → (t.pc p).numbered = some q → (t.proc q).pid ≠ 0 :=
    fun _ _ _ hon hk => h.step_numbered hs hf hst hon hk
  rcases quiet_or_notable hs hf hfam hst with hquiet | ⟨p, q, x, k, b, hn, hproc, _, hb⟩
  · have hnext : t.nextpid = s.nextpid := congrArg Books.nextpid hquiet.books
    have hpids : t.pids = s.pids := congrArg Books.pids hquiet.books
    refine ⟨by rw [hnext, hpids, h.next], fun q => ?_, fun q q' => ?_, fun q hq => ?_, hnumbered⟩
    · rw [hquiet.pid, hpids]
      exact h.range q
    · rw [hquiet.pid, hquiet.pid]
      exact h.inj q q'
    · refine h.step_used hs hst (fun q hp _ => ?_) hq
      rwa [hquiet.pid]
  · have hself : t.proc q = x := by rw [hproc, update_self]
    have hother : ∀ q', q' ≠ q → t.proc q' = s.proc q' := by
      intro q' hq
      rw [hproc, update_of_ne hq]
    -- the pid of the entry stays, is new, or is gone
    have hcases : x.pid = (s.proc q).pid ∧ t.nextpid = s.nextpid ∧ t.pids = s.pids ∨
        x = .free ∧ t.nextpid = s.nextpid ∧ t.pids = s.pids ∨
        x.pid = s.nextpid ∧ t.nextpid = Int.bmod (s.nextpid + 1) (2 ^ 32) ∧
          t.pids = s.pids + 1 := by
      have hnext : t.nextpid = b.nextpid := congrArg Books.nextpid hb
      have hpids : t.pids = b.pids := congrArg Books.pids hb
      cases hn with
      | pid => exact .inr (.inr ⟨rfl, hnext, hpids⟩)
      | free => exact .inr (.inl ⟨rfl, hnext, hpids⟩)
      | zombie => exact .inl ⟨rfl, hnext, hpids⟩
      | reap => exact .inr (.inl ⟨rfl, hnext, hpids⟩)
    have hrange : ∀ q', 0 ≤ (s.proc q').pid ∧ (s.proc q').pid ≤ s.pids := h.range
    have hold := h.next
    refine ⟨?_, fun q' => ?_, fun q1 q2 he hne => ?_, fun q' hq' => ?_, hnumbered⟩
    · rcases hcases with ⟨_, hn', hp⟩ | ⟨_, hn', hp⟩ | ⟨_, hn', hp⟩
      · rw [hn', hp, hold]
      · rw [hn', hp, hold]
      · rw [hn', hold, Int.bmod_eq_of_le (by omega) (by omega)]
        omega
    · rcases eq_or_ne q' q with rfl | hq
      · have hr := hrange q'
        rw [hself]
        rcases hcases with ⟨hx, _, hp⟩ | ⟨hx, _, hp⟩ | ⟨hx, _, hp⟩
        · rw [hx, hp]
          exact hr
        · rw [hx, hp]
          simp [Proc.free]
        · rw [hx, hp, hold]
          omega
      · have hr := hrange q'
        rw [hother q' hq]
        rcases hcases with ⟨_, _, hp⟩ | ⟨_, _, hp⟩ | ⟨_, _, hp⟩ <;> omega
    · have hfresh : ∀ q', q' ≠ q → x.pid ≠ 0 → x.pid ≠ (s.proc q').pid := by
        intro q' hq hx0 heq
        have hr := hrange q'
        rcases hcases with ⟨hx, _⟩ | ⟨hx, _⟩ | ⟨hx, _⟩
        · exact hq (h.inj q q' (hx.symm.trans heq) (by rwa [← hx])).symm
        · rw [hx] at hx0
          exact hx0 rfl
        · rw [hx, hold] at heq
          omega
      by_cases h1 : q1 = q
      · by_cases h2 : q2 = q
        · rw [h1, h2]
        rw [h1, hself] at he hne
        rw [hother q2 h2] at he
        exact absurd he (hfresh q2 h2 hne)
      rw [hother q1 h1] at he hne
      by_cases h2 : q2 = q
      · rw [h2, hself] at he
        exact absurd he.symm (hfresh q1 h1 (by rwa [← he]))
      · rw [hother q2 h2] at he
        exact h.inj q1 q2 he hne
    · refine h.step_used hs hst (fun q1 hp hu => ?_) hq'
      rcases eq_or_ne q1 q with rfl | hq
      · rw [hself] at hu ⊢
        rcases hcases with ⟨hx, _⟩ | ⟨hx, _⟩ | ⟨hx, _⟩
        · rwa [hx]
        · rw [hx] at hu
          exact absurd rfl hu
        · rw [hx, hold]
          omega
      · rwa [hother q1 hq]

end Pids

namespace History

theorem boot : History (boot : Procs n m) where
  zombie := by
    intro q hq
    unfold Procs.boot at hq
    by_cases h0 : q = 0
    · simp [h0] at hq
    · simp [h0, Proc.free] at hq
  fresh := by simp [Procs.boot]
  known := by simp [Procs.boot]
  once := by simp [Procs.boot]
  returned := by simp [Procs.boot]
  accounted := by simp [Procs.boot]
  status := by simp [Procs.boot]

theorem step (h : History s) (hp : Pids s) (hs : Sched s) (hf : Forks s) (hfam : Family s)
    (hst : Steps s c t) : History t := by
  rcases quiet_or_notable hs hf hfam hst with hquiet | ⟨p, q, x, k, b, hn, hproc, _, hb⟩
  · exact h.quiet hquiet
  have hexits : t.exits = b.exits := congrArg Books.exits hb
  have hwaits : t.waits = b.waits := congrArg Books.waits hb
  have hpids : t.pids = b.pids := congrArg Books.pids hb
  cases hn with
  | pid hu =>
    refine h.renumber hproc hexits hwaits (by rw [hpids]; exact Nat.le_succ _) (by simp [hu])
      (by simp [hu]) fun _ hi => ?_
    obtain ⟨e, he, heq⟩ := mem_map.mp hi
    have hk := (h.known e he).2
    have hnext := hp.next
    simp only at heq
    omega
  | free hu =>
    exact h.renumber hproc hexits hwaits (by rw [hpids]; exact le_rfl) (by simp [hu])
      (by simp [Proc.free]) fun hne => absurd rfl hne
  | zombie hr => exact h.exit hp hr hproc hexits hwaits hpids
  | reap _ hz => exact h.reap hp hz hproc hexits hwaits hpids rfl rfl

end History

theorem Steps.pids_le (hst : Steps s c t) : s.pids ≤ t.pids := by
  cases hst with
  | @edit p q x k b hon he =>
    generalize s.pc p = k₀ at he
    cases he with
    | pid => exact Nat.le_succ _
    | _ => exact le_rfl
  | _ => exact le_rfl

theorem Sched.zombie_step (hs : Sched s) (hf : Forks s) (hfam : Family s) (hst : Steps s c t)
    (hz : (s.proc q).state = .zombie) :
    (t.proc q).state = .zombie ∧ (t.proc q).pid = (s.proc q).pid ∧
      (t.proc q).xstate = (s.proc q).xstate ∨
    ∃ p addr, (s.proc q).parent = some p ∧ s.pc p = .waitLook addr q ∧
      t.waits = s.waits ++
        [⟨p, (s.proc q).pid, addr, if addr = true then some (s.proc q).xstate else none⟩] ∧
      t.pc p = .release q (.release p (.user (s.proc q).pid)) := by
  rcases quiet_or_notable hs hf hfam hst with hquiet | ⟨p, q', x, k, b, hn, hproc, hpc, hb⟩
  · exact .inl ⟨(hquiet.zombie q).mpr hz, hquiet.pid q, hquiet.xstate q⟩
  rcases eq_or_ne q q' with rfl | hq
  · cases hn with
    | pid hu | free hu | zombie hu =>
      rw [hz] at hu
      cases hu
    | @reap addr _ hlook _ hpar =>
      exact .inr ⟨p, addr, hpar, hlook, congrArg Books.waits hb, hpc⟩
  · rw [hproc, update_of_ne hq]
    exact .inl ⟨hz, rfl, rfl⟩

theorem History.reaches (h : Reaches Procs.step C Procs.boot s)
    (hmax : s.pids < 2 ^ 31 - 1) : Pids s ∧ History s := by
  have hinv : Sched s ∧ Forks s ∧ Family s ∧ (s.pids < 2 ^ 31 - 1 → Pids s ∧ History s) := by
    apply h.invariant
      (I := fun s => Sched s ∧ Forks s ∧ Family s ∧ (s.pids < 2 ^ 31 - 1 → Pids s ∧ History s))
      ⟨.boot, .boot, .boot, fun _ => ⟨.boot, .boot⟩⟩
    rintro u v a ⟨hs, hf, hfam, hold⟩ _ hst
    have hstep := steps_of_step hst
    refine ⟨hs.step hf hstep, hf.step hs hstep, hfam.step hs hf hstep, fun hv => ?_⟩
    obtain ⟨hp, hh⟩ := hold (Nat.lt_of_le_of_lt hstep.pids_le hv)
    exact ⟨hp.step hs hf hfam hstep hv, hh.step hp hs hf hfam hstep⟩
  exact hinv.2.2.2 hmax

/-- `exit` and `wait` agree: who exits is returned once, to its parent, which
does not sleep through it. -/
theorem exit_wait_agreement (h : Reaches step C boot s)
    (hmax : s.pids < 2 ^ 31 - 1) : (∀ q, (s.proc q).state ≠ .unused → 0 < (s.proc q).pid) ∧
    (∀ q q', (s.proc q).state ≠ .unused → (s.proc q').state ≠ .unused →
      (s.proc q).pid = (s.proc q').pid → q = q') ∧ (∀ q, q ≠ 0 → (s.proc q).state ≠ .unused →
      ∃ a, (s.proc q).parent = some a ∧ (s.proc a).state ≠ .unused ∧ (s.proc a).state ≠ .zombie) ∧
    (∀ a t, s.step a = some t → ∀ q, (s.proc q).state = .zombie →
      (t.proc q).state = .zombie ∧ (t.proc q).pid = (s.proc q).pid ∧
        (t.proc q).xstate = (s.proc q).xstate ∨
      ∃ p addr, (s.proc q).parent = some p ∧ s.pc p = .waitLook addr q ∧
        t.waits = s.waits ++
          [⟨p, (s.proc q).pid, addr, if addr = true then some (s.proc q).xstate else none⟩] ∧
        t.pc p = .release q (.release p (.user (s.proc q).pid))) ∧ (∀ e ∈ s.exits,
      (∃ q, (s.proc q).state = .zombie ∧ (s.proc q).pid = e.1 ∧ (s.proc q).xstate = e.2) ∨
      e.1 ∈ s.waits.map Reap.pid) ∧
    (∀ w ∈ s.waits, ∃ st, (w.pid, st) ∈ s.exits ∧
      w.status = if w.addr = true then some st else none) ∧
    (s.exits.map Prod.fst).Nodup ∧ (s.waits.map Reap.pid).Nodup ∧
    (∀ q, (s.proc q).state = .zombie → ((s.proc q).pid, (s.proc q).xstate) ∈ s.exits ∧
      (s.proc q).pid ∉ s.waits.map Reap.pid) ∧
    (∀ c p q t, s.thread c = some p → s.pc p = .waitLook true q → (s.proc q).state = .zombie →
      s.step (.run c false) = some t →
      t.proc = s.proc ∧ t.pc p = .release q (.release p (.user (-1)))) ∧
    (∀ p, p ≠ 0 → (s.proc p).state = .sleeping → (s.proc p).chan = some (.proc p) →
      ∀ q, (s.proc q).parent = some p → (s.proc q).state ≠ .zombie) := by
  obtain ⟨hs, hf⟩ := Sched.reaches h
  have hfam := Family.reaches h
  obtain ⟨hp, hh⟩ := History.reaches h hmax
  refine ⟨fun q hq => ?_, fun q q' hq _ he => hp.inj q q' he (hp.used q hq), fun q h0 hq => ?_,
    fun a t hst q hz => hs.zombie_step hf hfam (steps_of_step hst) hz, hh.accounted, hh.status,
    hh.once, hh.returned, hh.zombie, fun c p q t hc hpc hz hst => ?_, fun p h0 hsl hchan => ?_⟩
  · have hr := hp.range q
    have hne := hp.used q hq
    omega
  · obtain ⟨a, ha⟩ := Option.ne_none_iff_exists'.mp (hfam.orphan q h0 hq)
    exact ⟨a, ha, hfam.alive q a ha⟩
  · obtain ⟨p', hp', hst⟩ := Option.bind_eq_some_iff.mp hst
    rw [hc] at hp'
    cases hp'
    rw [hpc] at hst
    simp only [threadStep, hz, and_self, if_true, Option.some.injEq] at hst
    subst hst
    exact ⟨rfl, by simp⟩
  · -- a process sleeps on itself in `wait` only
    rcases hfam.bed p hsl with ⟨_, a, ha⟩ | ⟨addr, hpc⟩
    · rw [hchan] at ha
      cases ha
    have hk := hfam.knows p
    rw [hpc] at hk
    exact (hk hsl).2 h0

def forkExitWait (c : Fin m) : List (ProcAct m) :=
  startInit c ++ [.call c .fork] ++ List.replicate 13 (.run c true) ++
    [.call c (.wait true)] ++ List.replicate 8 (.run c true) ++ List.replicate 4 (.sched c) ++
    [.run c true, .call c (.exit 7)] ++ List.replicate 15 (.run c true) ++
    List.replicate 5 (.sched c) ++ List.replicate 7 (.run c true)

theorem exit_wait_agreement_forkExitWait :
    ∃ s : Procs 2 1, Reaches step (fun _ _ => True) boot s ∧ s.pids < 2 ^ 31 - 1 ∧
      s.exits = [(2, 7)] ∧ s.waits = [⟨0, 2, true, some 7⟩] ∧ (s.waits.map Reap.pid).Nodup := by
  have hrun : (exec step (fun _ _ => true) (boot : Procs 2 1) (forkExitWait 0)).map
      (fun s => (s.pids, s.exits, s.waits)) = some (2, [(2, 7)], [⟨0, 2, true, some 7⟩]) := by
    decide +kernel
  obtain ⟨s, hs, heq⟩ := Option.map_eq_some_iff.mp hrun
  simp only [Prod.mk.injEq] at heq
  obtain ⟨hpids, hexits, hwaits⟩ := heq
  have hreach : Reaches step (fun _ _ => True) boot s :=
    .exec .refl (fun _ _ _ _ => trivial) hs
  have hmax : s.pids < 2 ^ 31 - 1 := by
    rw [hpids]
    decide
  obtain ⟨_, _, _, _, _, _, _, hnodup, _⟩ := exit_wait_agreement hreach hmax
  exact ⟨s, hreach, hmax, hexits, hwaits, hnodup⟩

end Procs

end Xv6.Kernel
