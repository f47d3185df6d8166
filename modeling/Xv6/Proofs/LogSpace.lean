import Xv6.Proofs.Journal
/-!
# Room in the log

`begin_op` reserves `MAXOPBLOCKS` blocks for each operation against `LOGSIZE`,
but `log_write` panics as soon as `log.size - 1` blocks are recorded, and
`mkfs` makes `log.size` equal to `LOGSIZE`: one block of the reservation does
not exist.
-/

namespace Xv6.Kernel

open Function List

namespace Journal

variable {P : Type} [DecidableEq P] {s s t : Journal P} {p p : P} {a : Action}
  {C : Journal P → P → Action → Prop}

theorem Steps.size (h : Steps s p a t) : t.log.size = s.log.size := by
  cases h with
  | enter _ _ hl =>
    obtain ⟨_, _, rfl⟩ := beginPass_some hl
    rfl
  | endLast _ hl =>
    obtain ⟨_, _, rfl⟩ := endPass_last hl
    rfl
  | endOther _ hl =>
    obtain ⟨_, _, rfl⟩ := endPass_other hl
    rfl
  | record =>
    change (s.log.record _).size = _
    unfold Log.record
    split_ifs <;> rfl
  | sleep => rfl
  | reject => rfl
  | check => rfl
  | endPanic => rfl
  | move => rfl
  | writeHead => rfl
  | clear => rfl
  | finish => rfl

theorem Reaches.size (h : Reaches C s t) : t.log.size = s.log.size := by
  induction h with
  | refl => rfl
  | step p a _ _ hstep ih => exact (step_cases hstep).2.size.trans ih

/-! ## Nine blocks to an operation -/

/-- What the operations may still log fits beside what is logged. -/
structure Room (s : Journal P) : Prop where
  opNe : ∀ p q, (s.pc p).InOp → (s.pc q).InOp → s.op p = s.op q → p = q
  few : ∀ p, (s.pc p).InOp → (s.blocksOf (s.op p)).card ≤ MAXOPBLOCKS - 1
  checked : ∀ p b, s.pc p = .checked b →
    (insert b (s.blocksOf (s.op p))).card ≤ MAXOPBLOCKS - 1
  room : ∀ A : Finset P, (∀ p, p ∈ A ↔ (s.pc p).InOp) →
    s.log.lh.length + ∑ p ∈ A, (MAXOPBLOCKS - 1 - (s.blocksOf (s.op p)).card) ≤ LOGSIZE - 2

namespace Room

variable {l : Log} {b : Nat}

omit [DecidableEq P] in
theorem init (start size dev : Nat) : (Journal.init start size dev : Journal P).Room where
  opNe := fun _ _ h => h.elim
  few := fun _ h => h.elim
  checked := fun _ _ h => by cases h
  room := fun A hA => by
    have hempty : A = ∅ := Finset.eq_empty_of_forall_notMem fun p hp => (hA p).mp hp
    rw [hempty, Finset.sum_empty]
    exact Nat.zero_le _

omit [DecidableEq P] in
theorem mono (h : s.Room) (hrec : t.records = s.records)
    (hin : ∀ q, (t.pc q).InOp → (s.pc q).InOp ∧ t.op q = s.op q)
    (hlh : t.log.lh.length ≤ s.log.lh.length)
    (hchecked : ∀ q b, t.pc q = .checked b → s.pc q = .checked b ∨
      (insert b (s.blocksOf (s.op q))).card ≤ MAXOPBLOCKS - 1)
    (hfin : ∃ A : Finset P, ∀ q, q ∈ A ↔ (s.pc q).InOp) : t.Room := by
  have hblocks : t.blocksOf = s.blocksOf := by
    funext o
    unfold blocksOf
    rw [hrec]
  constructor
  · intro q r hq hr heq
    rw [(hin q hq).2, (hin r hr).2] at heq
    exact h.opNe q r (hin q hq).1 (hin r hr).1 heq
  · intro q hq
    rw [hblocks, (hin q hq).2]
    exact h.few q (hin q hq).1
  · intro q b hq
    have hqin : (t.pc q).InOp := by rw [hq]; trivial
    rw [hblocks, (hin q hqin).2]
    rcases hchecked q b hq with hs | hs
    · exact h.checked q b hs
    · exact hs
  intro A hA
  obtain ⟨B, hB⟩ := hfin
  have hsub : A ⊆ B := fun q hq => (hB q).mpr (hin q ((hA q).mp hq)).1
  have hsame : ∑ q ∈ A, (MAXOPBLOCKS - 1 - (t.blocksOf (t.op q)).card) =
      ∑ q ∈ A, (MAXOPBLOCKS - 1 - (s.blocksOf (s.op q)).card) := by
    apply Finset.sum_congr rfl
    intro q hq
    rw [hblocks, (hin q ((hA q).mp hq)).2]
  calc t.log.lh.length + ∑ q ∈ A, (MAXOPBLOCKS - 1 - (t.blocksOf (t.op q)).card)
      ≤ s.log.lh.length + ∑ q ∈ B, (MAXOPBLOCKS - 1 - (s.blocksOf (s.op q)).card) := by
        rw [hsame]
        exact Nat.add_le_add hlh (Finset.sum_le_sum_of_subset hsub)
    _ ≤ LOGSIZE - 2 := h.room B hB

theorem enter (h : s.Room) (hinv : s.Inv) (hbook : s.Book) (hp : ¬(s.pc p).InOp)
    (hl : s.log.beginPass = some l) : (s.enter p l).Room := by
  obtain ⟨hnc, hroom, rfl⟩ := beginPass_some hl
  let t := s.enter p { s.log with outstanding := s.log.outstanding + 1 }
  have hpc : ∀ q, t.pc q = if q = p then .inOp else s.pc q := fun q => update_apply ..
  have hop : ∀ q, t.op q = if q = p then s.nextOp else s.op q := fun q => update_apply ..
  have hnew : s.blocksOf s.nextOp = ∅ := by
    apply Finset.eq_empty_of_forall_notMem
    intro b hb
    simp only [blocksOf, mem_toFinset, mem_map, mem_filter, decide_eq_true_eq] at hb
    obtain ⟨r, ⟨hr, hro⟩, _⟩ := hb
    have hlt := hbook.recOld r hr
    omega
  change t.Room
  constructor
  · intro q r hq hr heq
    rw [hpc] at hq hr
    rw [hop, hop] at heq
    split_ifs at hq hr heq with hqp hrp hrp
    · rw [hqp, hrp]
    · exact absurd heq.symm (Nat.ne_of_lt (hbook.opOld r hr))
    · exact absurd heq (Nat.ne_of_lt (hbook.opOld q hq))
    · exact h.opNe q r hq hr heq
  · intro q hq
    rw [hpc] at hq
    change (s.blocksOf (t.op q)).card ≤ _
    rw [hop]
    split_ifs at hq ⊢
    · rw [hnew]
      exact Nat.zero_le _
    · exact h.few q hq
  · intro q b hq
    rw [hpc] at hq
    rw [hop]
    split_ifs at hq ⊢ with hqp
    exact h.checked q b hq
  intro A hA
  obtain ⟨B, hB, hcard⟩ := hinv.active
  have hpB : p ∉ B := fun hm => hp ((hB p).mp hm)
  have hAB : A = insert p B := by
    ext q
    rw [hA, hpc, Finset.mem_insert, hB]
    split_ifs with hq
    · simp [hq, Pc.InOp]
    · simp [hq]
  have hle : ∑ q ∈ A, (MAXOPBLOCKS - 1 - (t.blocksOf (t.op q)).card) ≤
      A.card * (MAXOPBLOCKS - 1) :=
    Finset.sum_le_card_nsmul _ _ _ fun q _ => Nat.sub_le _ _
  rw [hAB, Finset.card_insert_of_notMem hpB, ← hAB] at hle
  have hmax : MAXOPBLOCKS = 10 := rfl
  have hlog : LOGSIZE = 30 := rfl
  rw [hcard] at hroom
  change s.log.lh.length + _ ≤ _
  -- alone the operation starts with an empty log; beside others ten blocks each are reserved
  by_cases hB0 : B.card = 0
  · have hlh : s.log.lh = [] := hinv.empty (by rw [hcard, hB0]; rfl) hnc
    rw [hlh, length_nil]
    rw [hB0] at hle
    omega
  · rw [hmax] at hroom hle ⊢
    rw [hlog] at hroom ⊢
    omega

omit [DecidableEq P] in
theorem mem_lh_of_blocksOf (hinv : s.Inv) (hbook : s.Book) (hp : (s.pc p).InOp)
    (hb : b ∈ s.blocksOf (s.op p)) : b ∈ s.log.lh := by
  have hnc := hinv.not_committing hp
  rw [hbook.lh fun q hq => hinv.no_committer hnc q hq.commits]
  simp only [blocksOf, mem_toFinset, mem_map, mem_filter, decide_eq_true_eq] at hb
  obtain ⟨r, ⟨hr, hro⟩, hrb⟩ := hb
  exact ⟨r, hr, hbook.current p hp r hr hro, hrb⟩

theorem record (h : s.Room) (hinv : s.Inv) (hbook : s.Book)
    (hp : s.pc p = .checked b) : (s.record p b).Room := by
  have hin : (s.pc p).InOp := by rw [hp]; trivial
  have hpc : ∀ q, (s.record p b).pc q = if q = p then .inOp else s.pc q :=
    fun q => update_apply ..
  have hInOp : ∀ q, ((s.record p b).pc q).InOp ↔ (s.pc q).InOp := by
    intro q
    rw [hpc]
    split_ifs with hq
    · rw [hq]
      exact ⟨fun _ => hin, fun _ => trivial⟩
    · exact Iff.rfl
  have hself : (s.record p b).blocksOf (s.op p) = insert b (s.blocksOf (s.op p)) := by
    simp [blocksOf, Journal.record]
  have hother : ∀ o, o ≠ s.op p → (s.record p b).blocksOf o = s.blocksOf o := by
    intro o ho
    simp [blocksOf, Journal.record, Ne.symm ho]
  have hblocks : ∀ q, (s.pc q).InOp → q ≠ p →
      (s.record p b).blocksOf (s.op q) = s.blocksOf (s.op q) :=
    fun q hq hqp => hother _ fun heq => hqp (h.opNe q p hq hin heq)
  constructor
  · exact fun q r hq hr heq => h.opNe q r ((hInOp q).mp hq) ((hInOp r).mp hr) heq
  · intro q hq
    change ((s.record p b).blocksOf (s.op q)).card ≤ _
    by_cases hqp : q = p
    · rw [hqp, hself]
      exact h.checked p b hp
    · rw [hblocks q ((hInOp q).mp hq) hqp]
      exact h.few q ((hInOp q).mp hq)
  · intro q c hq
    have hqin : (s.pc q).InOp := (hInOp q).mp (by rw [hq]; trivial)
    rw [hpc] at hq
    split_ifs at hq with hqp
    change (insert c ((s.record p b).blocksOf (s.op q))).card ≤ _
    rw [hblocks q hqin hqp]
    exact h.checked q c hq
  intro A hA
  have hA' : ∀ q, q ∈ A ↔ (s.pc q).InOp := fun q => (hA q).trans (hInOp q)
  have hpA : p ∈ A := (hA' p).mpr hin
  have hold := h.room A hA'
  have hfew := h.checked p b hp
  have hrest : ∑ q ∈ A.erase p, (MAXOPBLOCKS - 1 - ((s.record p b).blocksOf (s.op q)).card) =
      ∑ q ∈ A.erase p, (MAXOPBLOCKS - 1 - (s.blocksOf (s.op q)).card) := by
    apply Finset.sum_congr rfl
    intro q hq
    have hq' := Finset.mem_erase.mp hq
    rw [hblocks q ((hA' q).mp hq'.2) hq'.1]
  rw [← Finset.add_sum_erase A _ hpA] at hold
  change (s.log.record b).lh.length +
    ∑ q ∈ A, (MAXOPBLOCKS - 1 - ((s.record p b).blocksOf (s.op q)).card) ≤ _
  rw [← Finset.add_sum_erase A _ hpA, hrest, hself]
  by_cases hb : b ∈ s.log.lh
  · -- absorbed
    have hlh : (s.log.record b).lh.length = s.log.lh.length := by
      unfold Log.record
      rw [if_pos hb]
    have hcard := Finset.card_le_card (Finset.subset_insert b (s.blocksOf (s.op p)))
    rw [hlh]
    omega
  have hlh : (s.log.record b).lh.length = s.log.lh.length + 1 := by
    unfold Log.record
    rw [if_neg hb]
    simp
  have hnew : b ∉ s.blocksOf (s.op p) :=
    fun hm => hb (mem_lh_of_blocksOf hinv hbook hin hm)
  rw [Finset.card_insert_of_notMem hnew] at hfew ⊢
  rw [hlh]
  omega

omit [DecidableEq P] in
theorem active (hinv : s.Inv) : ∃ A : Finset P, ∀ q, q ∈ A ↔ (s.pc q).InOp := by
  obtain ⟨A, hA, _⟩ := hinv.active
  exact ⟨A, hA⟩

section

variable (h : s.Room)
include h

theorem setPc (hinv : s.Inv) (p : P) (c : Pc) (l : Log) (hc : ¬c.InOp)
    (hlh : l.lh.length ≤ s.log.lh.length) : ((s.withLog l).setPc p c).Room := by
  refine h.mono rfl ?_ hlh ?_ (active hinv)
  · intro q hq
    rw [setPc_pc] at hq
    split_ifs at hq
    · exact absurd hq hc
    · exact ⟨hq, rfl⟩
  intro q b hq
  rw [setPc_pc] at hq
  split_ifs at hq
  · rw [hq] at hc
    exact absurd trivial hc
  · exact .inl hq

omit [DecidableEq P] in
theorem wakeup (hinv : ∃ A : Finset P, ∀ q, q ∈ A ↔ (s.pc q).InOp) :
    s.wakeup.Room := by
  refine h.mono rfl ?_ le_rfl ?_ hinv
  · exact fun q hq => ⟨(Pc.wake_inOp _).mp hq, rfl⟩
  intro q b hq
  left
  change (s.pc q).wake = _ at hq
  cases hpc : s.pc q <;> rw [hpc] at hq <;> first | exact hq | cases hq

omit [DecidableEq P] in
theorem lh_le (hinv : s.Inv) : s.log.lh.length ≤ LOGSIZE - 2 := by
  obtain ⟨A, hA⟩ := active hinv
  have hroom := h.room A hA
  omega

omit [DecidableEq P] in
theorem writeCheck_none (hinv : s.Inv) (hsize : s.log.size = LOGSIZE)
    (hp : (s.pc p).InOp) : s.log.writeCheck = none := by
  obtain ⟨A, hA, hcard⟩ := hinv.active
  have hpos : 0 < A.card := Finset.card_pos.mpr ⟨p, (hA p).mpr hp⟩
  have hle := h.lh_le hinv
  have hlog : LOGSIZE = 30 := rfl
  unfold Log.writeCheck
  rw [if_neg (by rw [hsize]; omega), if_neg (by omega)]

theorem step (hinv : s.Inv) (hbook : s.Book)
    (hC : OpBound (MAXOPBLOCKS - 1) s p a) (hs : Steps s p a t) : t.Room := by
  cases hs with
  | enter hp _ hl => exact h.enter hinv hbook hp hl
  | sleep => exact h.setPc hinv p .asleep s.log (fun hf => hf) le_rfl
  | reject =>
    exact h.mono rfl (fun q hq => ⟨hq, rfl⟩) le_rfl (fun q b hq => .inl hq)
      (active hinv)
  | check b hp _ =>
    refine h.mono rfl ?_ le_rfl ?_ (active hinv)
    · intro q hq
      rw [setPc_pc] at hq
      split_ifs at hq with hqp
      · rw [hqp, hp]
        exact ⟨trivial, rfl⟩
      · exact ⟨hq, rfl⟩
    intro q c hq
    rw [setPc_pc] at hq
    split_ifs at hq with hqp
    · cases hq
      rw [hqp]
      exact .inr hC
    · exact .inl hq
  | record hp => exact h.record hinv hbook hp
  | endPanic =>
    exact h.mono rfl (fun q hq => ⟨hq, rfl⟩) le_rfl (fun q b hq => .inl hq)
      (active hinv)
  | endLast _ hl =>
    obtain ⟨_, _, rfl⟩ := endPass_last hl
    exact h.setPc hinv p .commit _ (fun hf => hf) le_rfl
  | endOther hp hl =>
    have hdone := (hinv.endOther hp hl)
    obtain ⟨_, _, rfl⟩ := endPass_other hl
    have hmoved : ((s.withLog { s.log with
        outstanding := s.log.outstanding - 1 }).setPc p .idle).Room :=
      h.setPc hinv p .idle _ (fun hf => hf) le_rfl
    apply hmoved.wakeup
    obtain ⟨A, hA⟩ := active hdone
    exact ⟨A, fun q => (hA q).trans (Pc.wake_inOp _)⟩
  | @move c hm =>
    exact h.setPc hinv p c s.log (fun hf => hf.not_commits hm.commits.2) le_rfl
  | writeHead _ =>
    have hmoved : (s.setPc p (.installTrans 0)).Room :=
      h.setPc hinv p (.installTrans 0) s.log (fun hf => hf) le_rfl
    exact ⟨hmoved.opNe, hmoved.few, hmoved.checked, hmoved.room⟩
  | clear _ => exact h.setPc hinv p .writeClear _ (fun hf => hf) (Nat.zero_le _)
  | finish hp =>
    have hdone := hinv.finish hp
    have hmoved : ((s.withLog s.log.committed).setPc p .idle).Room :=
      h.setPc hinv p .idle _ (fun hf => hf) le_rfl
    have hwoken : ((s.withLog s.log.committed).setPc p .idle).wakeup.Room := by
      apply hmoved.wakeup
      obtain ⟨A, hA⟩ := active hdone
      exact ⟨A, fun q => (hA q).trans (Pc.wake_inOp _)⟩
    exact ⟨hwoken.opNe, hwoken.few, hwoken.checked, hwoken.room⟩

theorem reaches (hinv : s.Inv) (hbook : s.Book)
    (hr : Reaches (OpBound (MAXOPBLOCKS - 1)) s t) : t.Room := by
  induction hr with
  | refl => exact h
  | step p a hr hC hstep ih =>
    exact ih.step (hinv.reaches hr) (hbook.reaches hinv hr) hC (step_cases hstep).2

theorem halted (hinv : s.Inv) (hsize : s.log.size = LOGSIZE) (hok : s.halted = none)
    (hs : Steps s p a t) : t.halted = none := by
  cases hs with
  | reject b hpc hcheck =>
    rw [h.writeCheck_none hinv hsize (p := p) (by rw [hpc]; trivial)] at hcheck
    cases hcheck
  | endPanic hpc hl =>
    have hnc := hinv.not_committing (p := p) (by rw [hpc]; trivial)
    rw [endPass_error hl] at hnc
    cases hnc
  | _ => exact hok

end

end Room

/-- In runs whose operations log at most `MAXOPBLOCKS - 1` distinct blocks each, with the log
that `mkfs` lays out, nothing panics, and the log has room both when `log_write` makes its
tests, without the lock, and when it records the block, after others may have passed them. -/
theorem log_space (start dev : Nat) (s : Journal P)
    (hs : Reaches (OpBound (MAXOPBLOCKS - 1)) (init start LOGSIZE dev) s) :
    s.halted = none ∧
    (∀ p, s.pc p = .inOp → (s.log.lh.length : Int) < s.log.size - 1) ∧
    ∀ p b, s.pc p = .checked b → (s.log.lh.length : Int) < s.log.size - 1 ∧
      ((s.log.record b).lh.length : Int) < s.log.size - 1 := by
  have hinv0 : (init start LOGSIZE dev : Journal P).Inv := Inv.init start LOGSIZE dev
  have hbook0 : (init start LOGSIZE dev : Journal P).Book := Book.init start LOGSIZE dev
  have hroom0 : (init start LOGSIZE dev : Journal P).Room := Room.init start LOGSIZE dev
  have hinv := hinv0.reaches hs
  have hbook := hbook0.reaches hinv0 hs
  have hroom := hroom0.reaches hinv0 hbook0 hs
  have hsize : s.log.size = LOGSIZE := hs.size
  have hlog : LOGSIZE = 30 := rfl
  have hle := hroom.lh_le hinv
  refine ⟨?_, fun p _ => by omega, fun p b hp => ⟨by omega, ?_⟩⟩
  · induction hs with
    | refl => rfl
    | @step t u p a ht _ hstep ih =>
      have htinv := hinv0.reaches ht
      have htbook := hbook0.reaches hinv0 ht
      have htroom := hroom0.reaches hinv0 hbook0 ht
      exact htroom.halted htinv ht.size (step_cases hstep).1 (step_cases hstep).2
  · have hrec : (s.log.record b).lh.length ≤ LOGSIZE - 2 :=
      (hroom.record hinv hbook hp).lh_le (hinv.record hp)
    omega

def threeOps (n : Nat) : List (Nat × Action) :=
  [(0, .beginOp), (1, .beginOp), (2, .beginOp)] ++
    (List.range 3).flatMap fun p => (List.range n).flatMap fun k =>
      [(p, .logWrite (46 + n * p + k)), (p, .record)]

/-- Three operations log nine blocks each, and all three pass the tests for the last one
before any records it. -/
theorem log_space_nine : ∃ s : Journal Nat, s.log.lh.length = 26 ∧ s.pc 2 = .checked 72 ∧
    s.halted = none ∧ ((s.log.record 72).lh.length : Int) < s.log.size - 1 := by
  have hrun : ((init 2 LOGSIZE 1 : Journal Nat).exec (OpBound (MAXOPBLOCKS - 1)) (threeOps 8 ++
      [(0, .logWrite 70), (1, .logWrite 71), (2, .logWrite 72), (0, .record), (1, .record)])).map
      (fun s => (s.log.lh.length, s.pc 2)) = some (26, .checked 72) := by
    decide +kernel
  obtain ⟨s, hexec, hs⟩ := Option.map_eq_some_iff.mp hrun
  obtain ⟨hlen, hpc⟩ := Prod.mk.inj hs
  obtain ⟨hok, _, hrec⟩ := log_space 2 1 s (exec_reaches .refl _ hexec)
  exact ⟨s, hlen, hpc, hok, (hrec 2 72 hpc).2⟩

theorem log_space_exceeded :
    ∃ s : Journal Nat, Reaches (OpBound MAXOPBLOCKS) (init 2 LOGSIZE 1) s ∧
      s.halted = some .tooBigTransaction := by
  -- the last block of the third operation is one too many
  have hrun : ((init 2 LOGSIZE 1 : Journal Nat).exec (OpBound MAXOPBLOCKS)
      ((threeOps 10).take 62)).map (·.halted) = some (some .tooBigTransaction) := by
    decide +kernel
  obtain ⟨s, hexec, hs⟩ := Option.map_eq_some_iff.mp hrun
  exact ⟨s, exec_reaches .refl _ hexec, hs⟩

end Journal

end Xv6.Kernel
