import Xv6.Machine.Journal
import Mathlib.Algebra.BigOperators.Group.Finset.Basic
import Mathlib.Algebra.Order.BigOperators.Group.Finset
/-!
# Group commit

What one step of the log's users can do, the invariant of the group-commit
state machine, and the room in the log.
-/

namespace Xv6.Kernel

open Function List

variable {c : Pc} {l : Log}

namespace Pc

def Written : Pc → Prop
  | .installTrans _ | .clear | .writeClear | .finish => True
  | _ => False

def Cleared : Pc → Prop
  | .writeClear | .finish => True
  | _ => False

theorem Cleared.commits (h : c.Cleared) : c.Commits := by
  cases c <;> first | exact h | trivial

theorem Written.commits (h : c.Written) : c.Commits := by
  cases c <;> first | exact h | trivial

theorem InOp.not_commits (h : c.InOp) : ¬c.Commits := by
  cases c <;> first | exact h.elim | exact fun hc => hc

@[simp] theorem wake_inOp (c : Pc) : c.wake.InOp ↔ c.InOp := by
  cases c <;> exact Iff.rfl

@[simp] theorem wake_commits (c : Pc) : c.wake.Commits ↔ c.Commits := by
  cases c <;> exact Iff.rfl

@[simp] theorem wake_written (c : Pc) : c.wake.Written ↔ c.Written := by
  cases c <;> exact Iff.rfl

@[simp] theorem wake_cleared (c : Pc) : c.wake.Cleared ↔ c.Cleared := by
  cases c <;> exact Iff.rfl

theorem wake_ne_asleep (c : Pc) : c.wake ≠ .asleep := by
  cases c <;> simp [wake]

inductive Moves (l : Log) : Pc → Pc → Prop where
  | start : 0 < l.lh.length → Moves l .commit (.writeLog 0)
  | skip : l.lh = [] → Moves l .commit .finish
  | copy (tail : Nat) : Moves l (.writeLog tail) (.writeLog (tail + 1))
  | copied (tail : Nat) : Moves l (.writeLog tail) .writeHead
  | install (tail : Nat) : Moves l (.installTrans tail) (.installTrans (tail + 1))
  | installed (tail : Nat) : Moves l (.installTrans tail) .clear
  | done : Moves l .writeClear .finish

namespace Moves

variable {c' : Pc}

section

variable (h : Moves l c c')
include h

theorem commits : c.Commits ∧ c'.Commits := by
  cases h <;> exact ⟨trivial, trivial⟩

theorem written (hw : c'.Written) : c.Written ∨ l.lh = [] := by
  cases h with
  | skip hl => exact .inr hl
  | start => exact hw.elim
  | copy => exact hw.elim
  | copied => exact hw.elim
  | install => exact .inl trivial
  | installed => exact .inl trivial
  | done => exact .inl trivial

theorem cleared (hw : c'.Cleared) : c.Cleared ∨ l.lh = [] := by
  cases h with
  | skip hl => exact .inr hl
  | done => exact .inl trivial
  | start => exact hw.elim
  | copy => exact hw.elim
  | copied => exact hw.elim
  | install => exact hw.elim
  | installed => exact hw.elim

theorem written_of (hw : c.Written) : c'.Written := by
  cases h <;> first | exact hw.elim | trivial

theorem cleared_of (hc : c.Cleared) : c'.Cleared := by
  cases h <;> first | exact hc.elim | trivial

end

end Moves

theorem Cleared.written (h : c.Cleared) : c.Written := by
  cases c <;> first | exact h | trivial

end Pc

namespace Journal

variable {P : Type} [DecidableEq P] {l' : Log} {s s0 t u : Journal P} {p q : P} {e : Panic}
  {b : Nat}
  {a : Action} {C : Journal P → P → Action → Prop}

inductive Steps (s : Journal P) (p : P) : Action → Journal P → Prop where
  | enter {l : Log} : ¬(s.pc p).InOp → ¬(s.pc p).Commits → s.log.beginPass = some l →
      Steps s p .beginOp (s.enter p l)
  | sleep : ¬(s.pc p).InOp → ¬(s.pc p).Commits → s.log.beginPass = none →
      Steps s p .beginOp (s.setPc p .asleep)
  | reject (b : Nat) {e : Panic} : s.pc p = .inOp → s.log.writeCheck = some e →
      Steps s p (.logWrite b) (s.halt e)
  | check (b : Nat) : s.pc p = .inOp → s.log.writeCheck = none →
      Steps s p (.logWrite b) (s.setPc p (.checked b))
  | record {b : Nat} : s.pc p = .checked b → Steps s p .record (s.record p b)
  | endPanic {e : Panic} : s.pc p = .inOp → s.log.endPass = .error e →
      Steps s p .endOp (s.halt e)
  | endLast {l : Log} : s.pc p = .inOp → s.log.endPass = .ok (l, true) →
      Steps s p .endOp ((s.withLog l).setPc p .commit)
  | endOther {l : Log} : s.pc p = .inOp → s.log.endPass = .ok (l, false) →
      Steps s p .endOp ((s.withLog l).setPc p .idle).wakeup
  | move {c : Pc} : Pc.Moves s.log (s.pc p) c → Steps s p .commit (s.setPc p c)
  | writeHead : s.pc p = .writeHead → Steps s p .commit (s.writeHead p)
  | clear : s.pc p = .clear →
      Steps s p .commit ((s.withLog (s.log.withHead [])).setPc p .writeClear)
  | finish : s.pc p = .finish → Steps s p .commit (s.finish p)

theorem commitStep_cases (h : s.commitStep p (s.pc p) = some t) :
    Steps s p .commit t := by
  cases hpc : s.pc p with
  | commit =>
    rw [hpc] at h
    cases h
    by_cases hlen : 0 < s.log.lh.length
    · rw [if_pos hlen]
      exact .move (hpc ▸ .start hlen)
    · rw [if_neg hlen]
      exact .move (hpc ▸ .skip (length_eq_zero_iff.mp (by omega)))
  | writeLog tail =>
    rw [hpc] at h
    cases h
    split
    · exact .move (hpc ▸ .copy tail)
    · exact .move (hpc ▸ .copied tail)
  | writeHead =>
    rw [hpc] at h
    cases h
    exact .writeHead hpc
  | installTrans tail =>
    rw [hpc] at h
    cases h
    split
    · exact .move (hpc ▸ .install tail)
    · exact .move (hpc ▸ .installed tail)
  | clear =>
    rw [hpc] at h
    cases h
    exact .clear hpc
  | writeClear =>
    rw [hpc] at h
    cases h
    exact .move (hpc ▸ .done)
  | finish =>
    rw [hpc] at h
    cases h
    exact .finish hpc
  | idle => rw [hpc] at h; cases h
  | asleep => rw [hpc] at h; cases h
  | woken => rw [hpc] at h; cases h
  | inOp => rw [hpc] at h; cases h
  | checked b => rw [hpc] at h; cases h

theorem step_cases (h : s.step p a = some t) :
    s.halted = none ∧ Steps s p a t := by
  unfold step at h
  split at h
  next hrun =>
    refine ⟨hrun, ?_⟩
    cases a with
    | beginOp =>
      simp only [act] at h
      split at h
      next hpc =>
        have hout : ¬(s.pc p).InOp ∧ ¬(s.pc p).Commits := by
          rcases hpc with hpc | hpc <;> rw [hpc] <;> exact ⟨fun hf => hf, fun hf => hf⟩
        cases h
        unfold beginOp
        cases hpass : s.log.beginPass with
        | some l => exact .enter hout.1 hout.2 hpass
        | none => exact .sleep hout.1 hout.2 hpass
      next => cases h
    | logWrite b =>
      simp only [act] at h
      split at h
      next hpc =>
        cases h
        unfold logWrite
        cases hcheck : s.log.writeCheck with
        | some e => exact .reject b hpc hcheck
        | none => exact .check b hpc hcheck
      next => cases h
    | record =>
      simp only [act] at h
      split at h
      next b hpc =>
        cases h
        exact .record hpc
      next => cases h
    | endOp =>
      simp only [act] at h
      split at h
      next hpc =>
        cases h
        unfold endOp
        cases hend : s.log.endPass with
        | error e => exact .endPanic hpc hend
        | ok r =>
          obtain ⟨l, c⟩ := r
          cases c with
          | true => exact .endLast hpc hend
          | false => exact .endOther hpc hend
      next => cases h
    | commit => exact commitStep_cases h
  next => cases h

/-! ## The state machine -/

structure Inv (s : Journal P) : Prop where
  active : ∃ A : Finset P, (∀ p, p ∈ A ↔ (s.pc p).InOp) ∧ s.log.outstanding = A.card
  commits : ∀ p, (s.pc p).Commits → s.log.committing = true ∧ s.log.outstanding = 0
  unique : ∀ p q, (s.pc p).Commits → (s.pc q).Commits → p = q
  committer : s.log.committing = true → ∃ p, (s.pc p).Commits
  nodup : s.log.lh.Nodup
  empty : s.log.outstanding = 0 → s.log.committing = false → s.log.lh = []
  cleared : ∀ p, (s.pc p).Cleared → s.log.lh = []
  asleep : ∀ p, s.pc p = .asleep → s.log.committing = true ∨ 1 ≤ s.log.outstanding
  noPanic : s.halted ≠ some .logCommitting

namespace Inv

omit [DecidableEq P] in
theorem init (start size dev : Nat) : (Journal.init start size dev : Journal P).Inv where
  active := ⟨∅, fun p => by simp [Journal.init, Pc.InOp], rfl⟩
  commits := fun _ h => h.elim
  unique := fun _ _ h => h.elim
  committer := fun h => absurd h Bool.false_ne_true
  nodup := nodup_nil
  empty := fun _ _ => rfl
  cleared := fun _ h => h.elim
  asleep := fun _ h => absurd h (by simp [Journal.init])
  noPanic := fun h => by cases h

omit [DecidableEq P] in
theorem outstanding_pos (h : s.Inv) (hp : (s.pc p).InOp) : 1 ≤ s.log.outstanding := by
  obtain ⟨A, hA, hcard⟩ := h.active
  have hpos : 0 < A.card := Finset.card_pos.mpr ⟨p, (hA p).mpr hp⟩
  omega

omit [DecidableEq P] in
theorem not_committing (h : s.Inv) (hp : (s.pc p).InOp) : s.log.committing = false := by
  by_contra hc
  obtain ⟨q, hq⟩ := h.committer (by simpa using hc)
  have hzero := (h.commits q hq).2
  have hpos := h.outstanding_pos hp
  omega

omit [DecidableEq P] in
theorem no_committer (h : s.Inv) (hc : s.log.committing = false) (q : P) : ¬(s.pc q).Commits := by
  intro hq
  rw [(h.commits q hq).1] at hc
  cases hc

omit [DecidableEq P] in
theorem halt (h : s.Inv) (he : e ≠ .logCommitting) : (s.halt e).Inv :=
  { h with noPanic := fun heq => he (Option.some.inj heq) }

end Inv

theorem setPc_pc (s : Journal P) (p q : P) (c : Pc) :
    (s.setPc p c).pc q = if q = p then c else s.pc q :=
  update_apply ..

theorem beginPass_some (h : l.beginPass = some l') :
    l.committing = false ∧ (l.lh.length : Int) + (l.outstanding + 1) * MAXOPBLOCKS ≤ LOGSIZE ∧
      l' = { l with outstanding := l.outstanding + 1 } := by
  unfold Log.beginPass at h
  split_ifs at h with hc hroom
  cases h
  exact ⟨by simpa using hc, by omega, rfl⟩

theorem beginPass_none (h : l.beginPass = none) :
    l.committing = true ∨ (LOGSIZE : Int) < l.lh.length + (l.outstanding + 1) * MAXOPBLOCKS := by
  unfold Log.beginPass at h
  split_ifs at h with hc hroom
  · exact .inl hc
  · exact .inr hroom

theorem endPass_last (h : l.endPass = .ok (l', true)) :
    l.committing = false ∧ l.outstanding - 1 = 0 ∧
      l' = { l with outstanding := l.outstanding - 1, committing := true } := by
  unfold Log.endPass at h
  split_ifs at h with hc hout
  · cases h
    exact ⟨by simpa using hc, hout, rfl⟩
  · cases h

theorem endPass_other (h : l.endPass = .ok (l', false)) :
    l.committing = false ∧ l.outstanding - 1 ≠ 0 ∧
      l' = { l with outstanding := l.outstanding - 1 } := by
  unfold Log.endPass at h
  split_ifs at h with hc hout
  · cases h
  · cases h
    exact ⟨by simpa using hc, hout, rfl⟩

theorem endPass_error (h : l.endPass = .error e) : l.committing = true := by
  unfold Log.endPass at h
  split_ifs at h with hc
  exact hc

theorem writeCheck_ne (h : l.writeCheck = some e) : e ≠ .logCommitting := by
  unfold Log.writeCheck at h
  split_ifs at h <;> cases h <;> decide

theorem record_nodup (h : l.lh.Nodup) (b : Nat) : (l.record b).lh.Nodup := by
  unfold Log.record
  split_ifs with hb
  · exact h
  · exact nodup_append.mpr ⟨h, nodup_singleton b, fun a ha c hc he =>
      hb (mem_singleton.mp hc ▸ he ▸ ha)⟩

theorem record_mem {a : Nat} : a ∈ (l.record b).lh ↔ a ∈ l.lh ∨ a = b := by
  unfold Log.record
  split_ifs with hb
  · constructor
    · exact .inl
    rintro (ha | rfl)
    · exact ha
    · exact hb
  · simp

@[simp] theorem record_outstanding (l : Log) (b : Nat) :
    (l.record b).outstanding = l.outstanding := by
  unfold Log.record
  split_ifs <;> rfl

@[simp] theorem record_committing (l : Log) (b : Nat) : (l.record b).committing = l.committing := by
  unfold Log.record
  split_ifs <;> rfl

namespace Inv

section

variable (h : s.Inv)
include h

theorem enter (hp : ¬(s.pc p).InOp) (hl : s.log.beginPass = some l) : (s.enter p l).Inv := by
  obtain ⟨hc, _, rfl⟩ := beginPass_some hl
  obtain ⟨A, hA, hcard⟩ := h.active
  have hpA : p ∉ A := fun hm => hp ((hA p).mp hm)
  have hpc : ∀ q, (s.enter p { s.log with outstanding := s.log.outstanding + 1 }).pc q =
      if q = p then .inOp else s.pc q := fun q => update_apply ..
  have hnone : ∀ q, ¬((s.enter p { s.log with outstanding := s.log.outstanding + 1 }).pc
      q).Commits := by
    intro q
    rw [hpc]
    split_ifs
    · exact fun hf => hf
    · exact h.no_committer hc q
  constructor
  · refine ⟨insert p A, ?_, ?_⟩
    · intro q
      rw [hpc, Finset.mem_insert, hA]
      split_ifs with hq
      · simp [hq, Pc.InOp]
      · simp [hq]
    · rw [Finset.card_insert_of_notMem hpA, hcard]
      rfl
  · exact fun q hq => absurd hq (hnone q)
  · exact fun q _ hq => absurd hq (hnone q)
  · intro hcom
    rw [show s.log.committing = true from hcom] at hc
    cases hc
  · exact h.nodup
  · intro hzero
    change s.log.outstanding + 1 = 0 at hzero
    omega
  · exact fun q hq => absurd hq.commits (hnone q)
  · intro q _
    right
    change 1 ≤ s.log.outstanding + 1
    omega
  · exact h.noPanic

theorem setPc (hin : c.InOp ↔ (s.pc p).InOp)
    (hcom : c.Commits ↔ (s.pc p).Commits) (hclear : c.Cleared → s.log.lh = [])
    (hsleep : c = .asleep → s.log.committing = true ∨ 1 ≤ s.log.outstanding) :
    (s.setPc p c).Inv := by
  have hInOp : ∀ q, ((s.setPc p c).pc q).InOp ↔ (s.pc q).InOp := by
    intro q
    rw [setPc_pc]
    split_ifs with hq
    · rw [hq, hin]
    · exact Iff.rfl
  have hCommits : ∀ q, ((s.setPc p c).pc q).Commits ↔ (s.pc q).Commits := by
    intro q
    rw [setPc_pc]
    split_ifs with hq
    · rw [hq, hcom]
    · exact Iff.rfl
  constructor
  · obtain ⟨A, hA, hcard⟩ := h.active
    exact ⟨A, fun q => (hA q).trans (hInOp q).symm, hcard⟩
  · exact fun q hq => h.commits q ((hCommits q).mp hq)
  · exact fun q r hq hr => h.unique q r ((hCommits q).mp hq) ((hCommits r).mp hr)
  · intro hc
    obtain ⟨q, hq⟩ := h.committer hc
    exact ⟨q, (hCommits q).mpr hq⟩
  · exact h.nodup
  · exact h.empty
  · intro q hq
    rw [setPc_pc] at hq
    split_ifs at hq
    · exact hclear hq
    · exact h.cleared q hq
  · intro q hq
    rw [setPc_pc] at hq
    split_ifs at hq
    · exact hsleep hq
    · exact h.asleep q hq
  · exact h.noPanic

theorem sleep (hp : ¬(s.pc p).InOp) (hc : ¬(s.pc p).Commits)
    (hl : s.log.beginPass = none) : (s.setPc p .asleep).Inv := by
  apply h.setPc
  · exact ⟨fun hf => hf.elim, fun hf => absurd hf hp⟩
  · exact ⟨fun hf => hf.elim, fun hf => absurd hf hc⟩
  · exact fun hf => hf.elim
  intro _
  rcases beginPass_none hl with hcom | hroom
  · exact .inl hcom
  by_contra hnot
  have hnc : s.log.committing = false := by
    by_contra hcom
    exact hnot (.inl (by simpa using hcom))
  obtain ⟨A, _, hcard⟩ := h.active
  have hzero : s.log.outstanding = 0 := by
    by_contra hne
    exact hnot (.inr (by omega))
  -- with nothing outstanding the log is empty and has room
  rw [h.empty hzero hnc, hzero] at hroom
  exact absurd hroom (by decide)

theorem record (hp : s.pc p = .checked b) : (s.record p b).Inv := by
  have hin : (s.pc p).InOp := by rw [hp]; trivial
  have hnc := h.not_committing hin
  have hpos := h.outstanding_pos hin
  have hmoved : (s.setPc p .inOp).Inv := by
    apply h.setPc
    · exact ⟨fun _ => hin, fun _ => trivial⟩
    · exact ⟨fun hf => hf.elim, fun hf => absurd hf hin.not_commits⟩
    · exact fun hf => hf.elim
    · exact fun hf => by cases hf
  have hlog : (s.record p b).log = s.log.record b := rfl
  constructor
  · rw [hlog, record_outstanding]
    exact hmoved.active
  · rw [hlog, record_outstanding, record_committing]
    exact hmoved.commits
  · exact hmoved.unique
  · rw [hlog, record_committing]
    exact hmoved.committer
  · rw [hlog]
    exact record_nodup h.nodup b
  · intro hzero
    rw [hlog, record_outstanding] at hzero
    omega
  · exact fun q hq => absurd hq.commits (hmoved.no_committer hnc q)
  · rw [hlog, record_outstanding]
    exact fun q _ => .inr hpos
  · exact h.noPanic

theorem leave (hp : (s.pc p).InOp) (hc : ¬c.InOp) :
    ∃ A : Finset P, (∀ q, q ∈ A ↔ ((s.setPc p c).pc q).InOp) ∧
      s.log.outstanding - 1 = A.card := by
  obtain ⟨A, hA, hcard⟩ := h.active
  have hpA : p ∈ A := (hA p).mpr hp
  refine ⟨A.erase p, ?_, ?_⟩
  · intro q
    rw [setPc_pc, Finset.mem_erase, hA]
    split_ifs with hq
    · exact ⟨fun hm => absurd hq hm.1, fun hm => absurd hm hc⟩
    · exact ⟨fun hm => hm.2, fun hm => ⟨hq, hm⟩⟩
  · rw [Finset.card_erase_of_mem hpA, hcard]
    have hpos : 0 < A.card := Finset.card_pos.mpr ⟨p, hpA⟩
    omega

theorem endLast (hp : s.pc p = .inOp) (hl : s.log.endPass = .ok (l, true)) :
    ((s.withLog l).setPc p .commit).Inv := by
  obtain ⟨hnc, hout, rfl⟩ := endPass_last hl
  have hin : (s.pc p).InOp := by rw [hp]; trivial
  obtain ⟨A, hA, hcard⟩ := h.leave hin (c := .commit) (fun hf => hf)
  have hself : ∀ q, ((s.setPc p .commit).pc q).Commits → q = p := by
    intro q hq
    by_contra hne
    rw [setPc_pc, if_neg hne] at hq
    exact h.no_committer hnc q hq
  constructor
  · exact ⟨A, hA, hcard⟩
  · exact fun q _ => ⟨rfl, hout⟩
  · exact fun q r hq hr => (hself q hq).trans (hself r hr).symm
  · intro _
    refine ⟨p, ?_⟩
    rw [setPc_pc, if_pos rfl]
    trivial
  · exact h.nodup
  · exact fun _ hf => by cases hf
  · intro q hq
    have hqp := hself q hq.commits
    rw [hqp, setPc_pc, if_pos rfl] at hq
    exact hq.elim
  · exact fun q _ => .inl rfl
  · exact h.noPanic

theorem endOther (hp : s.pc p = .inOp) (hl : s.log.endPass = .ok (l, false)) :
    ((s.withLog l).setPc p .idle).wakeup.Inv := by
  obtain ⟨hnc, hout, rfl⟩ := endPass_other hl
  have hin : (s.pc p).InOp := by rw [hp]; trivial
  obtain ⟨A, hA, hcard⟩ := h.leave hin (c := .idle) (fun hf => hf)
  have hnone : ∀ q, ¬((s.setPc p .idle).pc q).wake.Commits := by
    intro q
    rw [Pc.wake_commits, setPc_pc]
    split_ifs
    · exact fun hf => hf
    · exact h.no_committer hnc q
  constructor
  · exact ⟨A, fun q => (hA q).trans (Pc.wake_inOp _).symm, hcard⟩
  · exact fun q hq => absurd hq (hnone q)
  · exact fun q _ hq => absurd hq (hnone q)
  · intro hcom
    rw [show s.log.committing = true from hcom] at hnc
    cases hnc
  · exact h.nodup
  · exact fun hzero => absurd hzero hout
  · exact fun q hq => absurd hq.commits (hnone q)
  · exact fun q hq => absurd hq (Pc.wake_ne_asleep _)
  · exact h.noPanic

theorem move (hm : Pc.Moves s.log (s.pc p) c) : (s.setPc p c).Inv := by
  obtain ⟨hfrom, hdest⟩ := hm.commits
  apply h.setPc
  · exact ⟨fun hf => absurd hdest hf.not_commits, fun hf => absurd hfrom hf.not_commits⟩
  · exact ⟨fun _ => hfrom, fun _ => hdest⟩
  · intro hclear
    rcases hm.cleared hclear with hc | hlh
    · exact h.cleared p hc
    · exact hlh
  · rintro rfl
    exact hdest.elim

theorem writeHead (hp : s.pc p = .writeHead) : (s.writeHead p).Inv := by
  have hmoved : (s.setPc p (.installTrans 0)).Inv := by
    apply h.setPc
    · rw [hp]
      exact Iff.rfl
    · rw [hp]
      exact Iff.rfl
    · exact fun hf => hf.elim
    · exact fun hf => by cases hf
  exact ⟨hmoved.active, hmoved.commits, hmoved.unique, hmoved.committer, hmoved.nodup,
    hmoved.empty, hmoved.cleared, hmoved.asleep, hmoved.noPanic⟩

theorem clear (hp : s.pc p = .clear) :
    ((s.withLog (s.log.withHead [])).setPc p .writeClear).Inv := by
  have hempty : (s.withLog (s.log.withHead [])).Inv :=
    ⟨h.active, h.commits, h.unique, h.committer, nodup_nil, fun _ _ => rfl, fun _ _ => rfl,
      h.asleep, h.noPanic⟩
  apply hempty.setPc
  · rw [show (s.withLog (s.log.withHead [])).pc p = .clear from hp]
    exact Iff.rfl
  · rw [show (s.withLog (s.log.withHead [])).pc p = .clear from hp]
    exact Iff.rfl
  · exact fun _ => rfl
  · exact fun hf => by cases hf

theorem finish (hp : s.pc p = .finish) : (s.finish p).Inv := by
  have hcom : (s.pc p).Commits := by rw [hp]; trivial
  have hlh : s.log.lh = [] := h.cleared p (by rw [hp]; trivial)
  have hpc : ∀ q, (s.finish p).pc q = ((s.setPc p .idle).pc q).wake := fun q => rfl
  have hnone : ∀ q, ¬((s.finish p).pc q).Commits := by
    intro q hq
    rw [hpc, Pc.wake_commits, setPc_pc] at hq
    split_ifs at hq with hqp
    · exact hq
    · exact hqp (h.unique q p hq hcom)
  constructor
  · obtain ⟨A, hA, hcard⟩ := h.active
    refine ⟨A, ?_, hcard⟩
    intro q
    rw [hpc, Pc.wake_inOp, setPc_pc, hA]
    split_ifs with hq
    · rw [hq, hp]
      exact Iff.rfl
    · exact Iff.rfl
  · exact fun q hq => absurd hq (hnone q)
  · exact fun q _ hq => absurd hq (hnone q)
  · exact fun hf => by cases hf
  · exact h.nodup
  · exact fun _ _ => hlh
  · exact fun q hq => absurd hq.commits (hnone q)
  · exact fun q hq => absurd hq (Pc.wake_ne_asleep _)
  · exact h.noPanic

theorem step (hs : Steps s p a t) : t.Inv := by
  cases hs with
  | enter hp _ hl => exact h.enter hp hl
  | sleep hp hc hl => exact h.sleep hp hc hl
  | reject b _ hl => exact h.halt (writeCheck_ne hl)
  | check b hp _ =>
    apply h.setPc
    · rw [hp]
      exact Iff.rfl
    · rw [hp]
      exact Iff.rfl
    · exact fun hf => hf.elim
    · exact fun hf => by cases hf
  | record hp => exact h.record hp
  | endPanic hp hl =>
    have hin : (s.pc p).InOp := by rw [hp]; trivial
    have hnc := h.not_committing hin
    rw [endPass_error hl] at hnc
    cases hnc
  | endLast hp hl => exact h.endLast hp hl
  | endOther hp hl => exact h.endOther hp hl
  | move hm => exact h.move hm
  | writeHead hp => exact h.writeHead hp
  | clear hp => exact h.clear hp
  | finish hp => exact h.finish hp

theorem reaches (hr : Reaches C s t) : t.Inv := by
  induction hr with
  | refl => exact h
  | step p a _ _ hstep ih => exact ih.step (step_cases hstep).2

end

omit [DecidableEq P] in
theorem not_inOp_of_commits (h : s.Inv) (hp : (s.pc p).Commits) (q : P) : ¬(s.pc q).InOp := by
  intro hq
  have hpos := h.outstanding_pos hq
  have hzero := (h.commits p hp).2
  omega

end Inv

/-! ## One operation, one commit -/

/-- The bookkeeping agrees with the log: `log.lh` holds what the current group
recorded, and each header written holds what its group recorded. -/
structure Book (s : Journal P) : Prop where
  opOld : ∀ p, (s.pc p).InOp → s.op p < s.nextOp
  recOld : ∀ r ∈ s.records, r.op < s.nextOp
  past : ∀ r ∈ s.records, r.epoch ≤ s.epoch
  same : ∀ r ∈ s.records, ∀ r' ∈ s.records, r.op = r'.op → r.epoch = r'.epoch
  current : ∀ p, (s.pc p).InOp → ∀ r ∈ s.records, r.op = s.op p → r.epoch = s.epoch
  lh : (∀ p, ¬(s.pc p).Cleared) →
    ∀ b, b ∈ s.log.lh ↔ ∃ r ∈ s.records, r.epoch = s.epoch ∧ r.block = b
  written : ∀ p, (s.pc p).Written → ∀ r ∈ s.records, r.epoch = s.epoch →
    ∃ names, (s.epoch, names) ∈ s.heads ∧ r.block ∈ names
  done : ∀ r ∈ s.records, r.epoch < s.epoch →
    ∃ names, (r.epoch, names) ∈ s.heads ∧ r.block ∈ names
  heads : ∀ e names, (e, names) ∈ s.heads →
    ∀ b, b ∈ names ↔ ∃ r ∈ s.records, r.epoch = e ∧ r.block = b
  headsOld : ∀ e names, (e, names) ∈ s.heads →
    e < s.epoch ∨ e = s.epoch ∧ ∃ p, (s.pc p).Written
  headsNodup : (s.heads.map Prod.fst).Nodup

namespace Book

omit [DecidableEq P] in
theorem init (start size dev : Nat) : (Journal.init start size dev : Journal P).Book where
  opOld := fun _ h => h.elim
  recOld := fun _ h => absurd h not_mem_nil
  past := fun _ h => absurd h not_mem_nil
  same := fun _ h => absurd h not_mem_nil
  current := fun _ h => h.elim
  lh := fun _ b => by simp [Journal.init]
  written := fun _ h => h.elim
  done := fun _ h => absurd h not_mem_nil
  heads := fun _ _ h => absurd h not_mem_nil
  headsOld := fun _ _ h => absurd h not_mem_nil
  headsNodup := nodup_nil

theorem setPc (h : s.Book) (hin : c.InOp → (s.pc p).InOp)
    (hclear : (s.pc p).Cleared → c.Cleared) (hwas : (s.pc p).Written → c.Written)
    (hw : c.Written → ∀ r ∈ s.records, r.epoch = s.epoch →
      ∃ names, (s.epoch, names) ∈ s.heads ∧ r.block ∈ names) : (s.setPc p c).Book := by
  have hInOp : ∀ q, ((s.setPc p c).pc q).InOp → (s.pc q).InOp := by
    intro q hq
    rw [setPc_pc] at hq
    split_ifs at hq with hqp
    · rw [hqp]
      exact hin hq
    · exact hq
  have hkeep : ∀ q, (s.pc q).Written → ((s.setPc p c).pc q).Written := by
    intro q hq
    rw [setPc_pc]
    split_ifs with hqp
    · rw [hqp] at hq
      exact hwas hq
    · exact hq
  refine ⟨fun q hq => h.opOld q (hInOp q hq), h.recOld, h.past, h.same,
    fun q hq => h.current q (hInOp q hq), ?_, ?_, h.done, h.heads, ?_, h.headsNodup⟩
  · intro hno
    apply h.lh
    intro q hq
    have hnot := hno q
    rw [setPc_pc] at hnot
    split_ifs at hnot with hqp
    · rw [hqp] at hq
      exact hnot (hclear hq)
    · exact hnot hq
  · intro q hq
    rw [setPc_pc] at hq
    split_ifs at hq with hqp
    · exact hw hq
    · exact h.written q hq
  · intro e names hmem
    rcases h.headsOld e names hmem with hlt | ⟨heq, q, hq⟩
    · exact .inl hlt
    · exact .inr ⟨heq, q, hkeep q hq⟩

omit [DecidableEq P] in
theorem withLog (h : s.Book) (hlh : l.lh = s.log.lh) : (s.withLog l).Book := by
  refine ⟨h.opOld, h.recOld, h.past, h.same, h.current, ?_, h.written, h.done, h.heads,
    h.headsOld, h.headsNodup⟩
  change _ → ∀ b, b ∈ l.lh ↔ _
  rw [hlh]
  exact h.lh

omit [DecidableEq P] in
theorem wakeup (h : s.Book) : s.wakeup.Book where
  opOld := fun q hq => h.opOld q ((Pc.wake_inOp _).mp hq)
  recOld := h.recOld
  past := h.past
  same := h.same
  current := fun q hq => h.current q ((Pc.wake_inOp _).mp hq)
  lh := fun hno => h.lh fun q hq => hno q ((Pc.wake_cleared _).mpr hq)
  written := fun q hq => h.written q ((Pc.wake_written _).mp hq)
  done := h.done
  heads := h.heads
  headsOld := fun e names hmem => by
    rcases h.headsOld e names hmem with hlt | ⟨heq, q, hq⟩
    · exact .inl hlt
    · exact .inr ⟨heq, q, (Pc.wake_written _).mpr hq⟩
  headsNodup := h.headsNodup

section

variable (h : s.Book)
include h

theorem enter (hinv : s.Inv) (hl : s.log.beginPass = some l) : (s.enter p l).Book := by
  obtain ⟨hnc, _, rfl⟩ := beginPass_some hl
  have hpc : ∀ q, (s.enter p { s.log with outstanding := s.log.outstanding + 1 }).pc q =
      if q = p then .inOp else s.pc q := fun q => update_apply ..
  have hop : ∀ q, (s.enter p { s.log with outstanding := s.log.outstanding + 1 }).op q =
      if q = p then s.nextOp else s.op q := fun q => update_apply ..
  have hnone : ∀ q, ¬(s.pc q).Written := fun q hq => hinv.no_committer hnc q hq.commits
  constructor
  · intro q hq
    rw [hpc] at hq
    rw [hop]
    change _ < s.nextOp + 1
    split_ifs at hq ⊢ with hqp
    · omega
    · exact Nat.lt_succ_of_lt (h.opOld q hq)
  · exact fun r hr => Nat.lt_succ_of_lt (h.recOld r hr)
  · exact h.past
  · exact h.same
  · intro q hq r hr hro
    rw [hpc] at hq
    rw [hop] at hro
    split_ifs at hq hro with hqp
    · -- no record carries the new operation's number
      have hlt := h.recOld r hr
      omega
    · exact h.current q hq r hr hro
  · intro _
    apply h.lh
    exact fun q hq => hinv.no_committer hnc q hq.commits
  · intro q hq
    rw [hpc] at hq
    split_ifs at hq
    · exact hq.elim
    · exact absurd hq (hnone q)
  · exact h.done
  · exact h.heads
  · intro e names hmem
    rcases h.headsOld e names hmem with hlt | ⟨_, q, hq⟩
    · exact .inl hlt
    · exact absurd hq (hnone q)
  · exact h.headsNodup

theorem record (hinv : s.Inv) (hp : s.pc p = .checked b) : (s.record p b).Book := by
  have hin : (s.pc p).InOp := by rw [hp]; trivial
  have hnc := hinv.not_committing hin
  have hnone : ∀ q, ¬(s.pc q).Written := fun q hq => hinv.no_committer hnc q hq.commits
  have hpc : ∀ q, (s.record p b).pc q = if q = p then .inOp else s.pc q :=
    fun q => update_apply ..
  have hInOp : ∀ q, ((s.record p b).pc q).InOp → (s.pc q).InOp := by
    intro q hq
    rw [hpc] at hq
    split_ifs at hq with hqp
    · rw [hqp]
      exact hin
    · exact hq
  have hold : ∀ e names, (e, names) ∈ s.heads → e < s.epoch := by
    intro e names hmem
    rcases h.headsOld e names hmem with hlt | ⟨_, q, hq⟩
    · exact hlt
    · exact absurd hq (hnone q)
  have hmem : ∀ r, r ∈ (s.record p b).records ↔ r = ⟨s.op p, s.epoch, b⟩ ∨ r ∈ s.records :=
    fun r => mem_cons
  constructor
  · exact fun q hq => h.opOld q (hInOp q hq)
  · intro r hr
    rcases (hmem r).mp hr with rfl | hr
    · exact h.opOld p hin
    · exact h.recOld r hr
  · intro r hr
    rcases (hmem r).mp hr with rfl | hr
    · exact le_rfl
    · exact h.past r hr
  · intro r hr r' hr' hop
    rcases (hmem r).mp hr with rfl | hr
    · rcases (hmem r').mp hr' with rfl | hr'
      · rfl
      · exact (h.current p hin r' hr' hop.symm).symm
    · rcases (hmem r').mp hr' with rfl | hr'
      · exact h.current p hin r hr hop
      · exact h.same r hr r' hr' hop
  · intro q hq r hr hop
    rcases (hmem r).mp hr with rfl | hr
    · rfl
    · exact h.current q (hInOp q hq) r hr hop
  · intro _ a
    have hlh := h.lh (fun q hq => hinv.no_committer hnc q hq.commits) a
    change a ∈ (s.log.record b).lh ↔ ∃ r, r ∈ (s.record p b).records ∧ r.epoch = s.epoch ∧
        r.block = a
    rw [record_mem, hlh]
    constructor
    · rintro (⟨r, hr, hre⟩ | rfl)
      · exact ⟨r, (hmem r).mpr (.inr hr), hre⟩
      · exact ⟨_, (hmem _).mpr (.inl rfl), rfl, rfl⟩
    rintro ⟨r, hr, hre⟩
    rcases (hmem r).mp hr with rfl | hr
    · exact .inr hre.2.symm
    · exact .inl ⟨r, hr, hre⟩
  · intro q hq
    rw [hpc] at hq
    split_ifs at hq
    · exact hq.elim
    · exact absurd hq (hnone q)
  · intro r hr hlt
    rcases (hmem r).mp hr with rfl | hr
    · exact absurd hlt (Nat.lt_irrefl _)
    · exact h.done r hr hlt
  · intro e names hhead a
    have hlt := hold e names hhead
    rw [h.heads e names hhead a]
    constructor
    · rintro ⟨r, hr, hre⟩
      exact ⟨r, (hmem r).mpr (.inr hr), hre⟩
    rintro ⟨r, hr, hre⟩
    rcases (hmem r).mp hr with rfl | hr
    · exact absurd hre.1.symm (Nat.ne_of_lt hlt)
    · exact ⟨r, hr, hre⟩
  · exact fun e names hhead => .inl (hold e names hhead)
  · exact h.headsNodup

theorem writeHead (hinv : s.Inv) (hp : s.pc p = .writeHead) : (s.writeHead p).Book := by
  have hcom : (s.pc p).Commits := by rw [hp]; trivial
  -- the only committing process has not written its header yet
  have hnone : ∀ q, ¬(s.pc q).Written := by
    intro q hq
    rw [hinv.unique q p hq.commits hcom, hp] at hq
    exact hq
  have hlh := h.lh fun q hq => hnone q hq.written
  have hpc : ∀ q, (s.writeHead p).pc q = if q = p then .installTrans 0 else s.pc q :=
    fun q => update_apply ..
  have hout : ∀ q, ¬((s.writeHead p).pc q).InOp := by
    intro q hq
    rw [hpc] at hq
    split_ifs at hq
    · exact hq
    · exact hinv.not_inOp_of_commits hcom q hq
  have hmem : ∀ x, x ∈ (s.writeHead p).heads ↔ x = (s.epoch, s.log.lh) ∨ x ∈ s.heads :=
    fun x => mem_cons
  have hold : ∀ e names, (e, names) ∈ s.heads → e < s.epoch := by
    intro e names hx
    rcases h.headsOld e names hx with hlt | ⟨_, q, hq⟩
    · exact hlt
    · exact absurd hq (hnone q)
  constructor
  · exact fun q hq => absurd hq (hout q)
  · exact h.recOld
  · exact h.past
  · exact h.same
  · exact fun q hq => absurd hq (hout q)
  · exact fun _ => hlh
  · intro q _ r hr hre
    exact ⟨s.log.lh, (hmem _).mpr (.inl rfl), (hlh r.block).mpr ⟨r, hr, hre, rfl⟩⟩
  · intro r hr hlt
    obtain ⟨names, hn, hb⟩ := h.done r hr hlt
    exact ⟨names, (hmem _).mpr (.inr hn), hb⟩
  · intro e names hx
    rcases (hmem _).mp hx with heq | hx
    · obtain ⟨rfl, rfl⟩ := Prod.mk.inj heq
      exact hlh
    · exact h.heads e names hx
  · intro e names hx
    rcases (hmem _).mp hx with heq | hx
    · right
      refine ⟨(Prod.mk.inj heq).1, p, ?_⟩
      rw [hpc, if_pos rfl]
      trivial
    · exact .inl (hold e names hx)
  · refine nodup_cons.mpr ⟨?_, h.headsNodup⟩
    intro hx
    obtain ⟨⟨e, names⟩, hx', heq⟩ := mem_map.mp hx
    have hlt := hold e names hx'
    exact absurd heq (Nat.ne_of_lt hlt)

theorem clear (hp : s.pc p = .clear) :
    ((s.withLog (s.log.withHead [])).setPc p .writeClear).Book := by
  have hmoved : (s.setPc p .writeClear).Book := by
    apply h.setPc
    · exact fun hf => hf.elim
    · rw [hp]
      exact fun hf => hf.elim
    · exact fun _ => trivial
    · exact fun _ => h.written p (by rw [hp]; trivial)
  refine ⟨hmoved.opOld, hmoved.recOld, hmoved.past, hmoved.same, hmoved.current, ?_,
    hmoved.written, hmoved.done, hmoved.heads, hmoved.headsOld, hmoved.headsNodup⟩
  intro hno
  refine absurd ?_ (hno p)
  rw [setPc_pc, if_pos rfl]
  trivial

theorem finish (hinv : s.Inv) (hp : s.pc p = .finish) : (s.finish p).Book := by
  have hcom : (s.pc p).Commits := by rw [hp]; trivial
  have hlh : s.log.lh = [] := hinv.cleared p (by rw [hp]; trivial)
  have hinv' := hinv.finish hp
  have hnone : ∀ q, ¬((s.finish p).pc q).Commits := hinv'.no_committer rfl
  have hout : ∀ q, ¬((s.finish p).pc q).InOp := by
    intro q hq
    change ((s.setPc p .idle).pc q).wake.InOp at hq
    rw [Pc.wake_inOp, setPc_pc] at hq
    split_ifs at hq
    · exact hq
    · exact hinv.not_inOp_of_commits hcom q hq
  constructor
  · exact fun q hq => absurd hq (hout q)
  · exact h.recOld
  · exact fun r hr => Nat.le_succ_of_le (h.past r hr)
  · exact h.same
  · exact fun q hq => absurd hq (hout q)
  · intro _ b
    change b ∈ s.log.lh ↔ ∃ r ∈ s.records, r.epoch = s.epoch + 1 ∧ r.block = b
    rw [hlh]
    constructor
    · exact fun hb => absurd hb not_mem_nil
    rintro ⟨r, hr, hre, _⟩
    have hle := h.past r hr
    omega
  · exact fun q hq => absurd hq.commits (hnone q)
  · intro r hr hlt
    change r.epoch < s.epoch + 1 at hlt
    by_cases heq : r.epoch = s.epoch
    · rw [heq]
      exact h.written p (by rw [hp]; trivial) r hr heq
    · exact h.done r hr (by omega)
  · exact h.heads
  · intro e names hx
    left
    change e < s.epoch + 1
    rcases h.headsOld e names hx with hlt | ⟨heq, _⟩
    · omega
    · omega
  · exact h.headsNodup

theorem step (hinv : s.Inv) (hs : Steps s p a t) : t.Book := by
  cases hs with
  | enter hp _ hl => exact h.enter hinv hl
  | sleep hp hc hl =>
    apply h.setPc
    · exact fun hf => hf.elim
    · exact fun hf => absurd hf.commits hc
    · exact fun hf => absurd hf.commits hc
    · exact fun hf => hf.elim
  | reject b _ _ =>
    exact ⟨h.opOld, h.recOld, h.past, h.same, h.current, h.lh, h.written, h.done, h.heads,
      h.headsOld, h.headsNodup⟩
  | check b hp _ =>
    apply h.setPc
    · rw [hp]
      exact fun _ => trivial
    · rw [hp]
      exact fun hf => hf.elim
    · rw [hp]
      exact fun hf => hf.elim
    · exact fun hf => hf.elim
  | record hp => exact h.record hinv hp
  | endPanic _ _ =>
    exact ⟨h.opOld, h.recOld, h.past, h.same, h.current, h.lh, h.written, h.done, h.heads,
      h.headsOld, h.headsNodup⟩
  | endLast hp hl =>
    obtain ⟨_, _, rfl⟩ := endPass_last hl
    have hlog : (s.withLog { s.log with
        outstanding := s.log.outstanding - 1, committing := true }).Book := h.withLog rfl
    apply hlog.setPc
    · exact fun hf => hf.elim
    · exact fun hf => absurd hf.commits (show (s.pc p).InOp by rw [hp]; trivial).not_commits
    · exact fun hf => absurd hf.commits (show (s.pc p).InOp by rw [hp]; trivial).not_commits
    · exact fun hf => hf.elim
  | endOther hp hl =>
    obtain ⟨_, _, rfl⟩ := endPass_other hl
    have hlog : (s.withLog { s.log with outstanding := s.log.outstanding - 1 }).Book :=
      h.withLog rfl
    apply wakeup
    apply hlog.setPc
    · exact fun hf => hf.elim
    · exact fun hf => absurd hf.commits (show (s.pc p).InOp by rw [hp]; trivial).not_commits
    · exact fun hf => absurd hf.commits (show (s.pc p).InOp by rw [hp]; trivial).not_commits
    · exact fun hf => hf.elim
  | @move c hm =>
    obtain ⟨hfrom, hdest⟩ := hm.commits
    apply h.setPc
    · exact fun hf => absurd hdest hf.not_commits
    · exact hm.cleared_of
    · exact hm.written_of
    intro hw r hr hre
    rcases hm.written hw with hwas | hempty
    · exact h.written p hwas r hr hre
    -- nothing was recorded, so there is no header to write
    by_cases hclear : (s.pc p).Cleared
    · exact h.written p hclear.written r hr hre
    have hlh := (h.lh fun q hq => hclear (hinv.unique q p hq.commits hfrom ▸ hq)) r.block
    rw [hempty] at hlh
    exact absurd (hlh.mpr ⟨r, hr, hre, rfl⟩) not_mem_nil
  | writeHead hp => exact h.writeHead hinv hp
  | clear hp => exact h.clear hp
  | finish hp => exact h.finish hinv hp

theorem reaches (hinv : s.Inv) (hr : Reaches C s t) : t.Book := by
  induction hr with
  | refl => exact h
  | step p a hr _ hstep ih => exact ih.step (hinv.reaches hr) (step_cases hstep).2

end

end Book

/-- What group commit promises. -/
structure GroupCommit (s : Journal P) : Prop where
  alone : ∀ p, (s.pc p).Commits → s.log.outstanding = 0 ∧
    ∀ q u, s.step q .beginOp = some u → ¬(u.pc q).InOp
  nodup : s.log.lh.Nodup
  idle : s.log.outstanding = 0 → s.log.committing = false → s.log.lh = []
  noPanic : s.halted ≠ some .logCommitting
  /-- The header with one block of an operation has them all. -/
  together : ∀ e names, (e, names) ∈ s.heads → ∀ r ∈ s.records, r.epoch = e →
    ∀ r' ∈ s.records, r'.op = r.op → r'.epoch = e ∧ r'.block ∈ names
  /-- Each commit has one header, and every recorded block of a past commit is in it. -/
  recorded : (s.heads.map Prod.fst).Nodup ∧ ∀ r ∈ s.records, r.epoch < s.epoch →
    ∃ names, (r.epoch, names) ∈ s.heads ∧ r.block ∈ names
  /-- A sleeper has somebody to wake it. -/
  asleep : ∀ p, s.pc p = .asleep →
    (s.log.committing = true ∧ ∃ q, (s.pc q).Commits) ∨
      1 ≤ s.log.outstanding ∧ ∃ q, (s.pc q).InOp
  /-- An `end_op` that returns has woken everybody. -/
  wakes : ∀ q a u, s.step q a = some u → (s.pc q).InOp ∨ (s.pc q).Commits → u.pc q = .idle →
    ∀ p, u.pc p ≠ .asleep

theorem Steps.returns (hs : Steps s q a u)
    (hq : (s.pc q).InOp ∨ (s.pc q).Commits) (hidle : u.pc q = .idle) (p : P) :
    u.pc p ≠ .asleep := by
  cases hs with
  | endOther => exact Pc.wake_ne_asleep _
  | finish => exact Pc.wake_ne_asleep _
  | enter hin hcom => exact absurd hq (not_or.mpr ⟨hin, hcom⟩)
  | sleep hin hcom => exact absurd hq (not_or.mpr ⟨hin, hcom⟩)
  | reject b hpc =>
    rw [show (s.halt _).pc q = s.pc q from rfl, hpc] at hidle
    cases hidle
  | endPanic hpc =>
    rw [show (s.halt _).pc q = s.pc q from rfl, hpc] at hidle
    cases hidle
  | check b =>
    rw [setPc_pc, if_pos rfl] at hidle
    cases hidle
  | record =>
    rw [show (s.record q _).pc q = .inOp from update_self ..] at hidle
    cases hidle
  | endLast =>
    rw [setPc_pc, if_pos rfl] at hidle
    cases hidle
  | move hm =>
    rw [setPc_pc, if_pos rfl] at hidle
    exact absurd hm.commits.2 (by rw [hidle]; exact fun hf => hf)
  | writeHead =>
    rw [show (s.writeHead q).pc q = .installTrans 0 from update_self ..] at hidle
    cases hidle
  | clear =>
    rw [setPc_pc, if_pos rfl] at hidle
    cases hidle

/-- The group-commit state machine, over every interleaving. -/
theorem group_commit {start size dev : Nat}
    (h : Reaches (fun _ _ _ => True) (init start size dev) s) : s.GroupCommit := by
  have hinv : s.Inv := (Inv.init start size dev).reaches h
  have hbook : s.Book := (Book.init start size dev).reaches (Inv.init start size dev) h
  constructor
  · intro p hp
    refine ⟨(hinv.commits p hp).2, ?_⟩
    intro q u hstep hin
    obtain ⟨_, hs⟩ := step_cases hstep
    cases hs with
    | enter _ _ hl =>
      have hnc := (beginPass_some hl).1
      rw [(hinv.commits p hp).1] at hnc
      cases hnc
    | sleep =>
      rw [setPc_pc, if_pos rfl] at hin
      exact hin
  · exact hinv.nodup
  · exact hinv.empty
  · exact hinv.noPanic
  · intro e names hhead r hr hre r' hr' hop
    have hre' : r'.epoch = e := (hbook.same r' hr' r hr hop).trans hre
    exact ⟨hre', (hbook.heads e names hhead r'.block).mpr ⟨r', hr', hre', rfl⟩⟩
  · exact ⟨hbook.headsNodup, hbook.done⟩
  · intro p hp
    rcases hinv.asleep p hp with hcom | hout
    · exact .inl ⟨hcom, hinv.committer hcom⟩
    obtain ⟨A, hA, hcard⟩ := hinv.active
    obtain ⟨q, hq⟩ := Finset.card_pos.mp (show 0 < A.card by omega)
    exact .inr ⟨hout, q, (hA q).mp hq⟩
  · exact fun q a u hstep hq hidle p => (step_cases hstep).2.returns hq hidle p

theorem exec_reaches [∀ s p a, Decidable (C s p a)] (h : Reaches C s0 s) (l : List (P × Action))
    (hl : s.exec C l = some t) : Reaches C s0 t := by
  induction l generalizing s with
  | nil =>
    cases hl
    exact h
  | cons x rest ih =>
    obtain ⟨p, a⟩ := x
    simp only [exec] at hl
    split_ifs at hl with hC
    cases hstep : s.step p a with
    | none =>
      rw [hstep] at hl
      cases hl
    | some u =>
      rw [hstep] at hl
      exact ih (h.step p a hC hstep) hl

def sharedRun : List (Nat × Action) :=
  [(0, .beginOp), (1, .beginOp), (0, .logWrite 46), (1, .logWrite 47), (1, .record), (0, .record),
    (1, .endOp), (0, .endOp), (2, .beginOp), (0, .commit), (0, .commit), (0, .commit)]

theorem group_commit_shared :
    ∃ s : Journal (Nat), s.log.lh = [47, 46] ∧ s.pc 2 = .asleep ∧ s.GroupCommit := by
  have hrun : ((init 2 LOGSIZE 1 : Journal (Nat)).exec (fun _ _ _ => True) sharedRun).any
      (fun s => s.log.lh = [47, 46] ∧ s.pc 2 = .asleep) = true := by decide +kernel
  cases hexec : (init 2 LOGSIZE 1 : Journal (Nat)).exec (fun _ _ _ => True) sharedRun with
  | none =>
    rw [hexec] at hrun
    cases hrun
  | some s =>
    rw [hexec] at hrun
    obtain ⟨hlh, hpc⟩ := of_decide_eq_true hrun
    exact ⟨s, hlh, hpc, group_commit (exec_reaches .refl sharedRun hexec)⟩

end Journal

end Xv6.Kernel
