import Xv6.Machine.Console
import Xv6.Lib.Ring
/-!
# The console implements its line discipline

The ring between `r` and `e` holds the queue and after it the line that is being
edited.  Both `consoleintr` and `consoleread` keep that, so the console does what
the discipline does.
-/

namespace Xv6.Kernel

open Xv6.Lib Function List

variable {d : Discipline} {x : ConsRead} {k : Nat}

theorem INPUT_BUF_eq : INPUT_BUF = 128 := rfl

theorem INPUT_BUF_dvd : INPUT_BUF ∣ 2 ^ 32 := ⟨2 ^ 25, rfl⟩

namespace Cons

variable {s : Cons} {n : Nat} {c : UInt8} {l : List UInt8}

/-- The ring holds the queue and the line; `n` characters have been read. -/
structure Sim (s : Cons) (n : Nat) (d : Discipline) : Prop where
  r : s.r.toNat = n % 2 ^ 32
  w : s.w.toNat = (n + d.queue.length) % 2 ^ 32
  e : s.e.toNat = (n + d.queue.length + d.line.length) % 2 ^ 32
  ring : Ring INPUT_BUF s.buf.get n (d.queue ++ d.line)
  full : d.queue.length + d.line.length = INPUT_BUF → d.line = []
  plain : newline ∉ d.line

theorem sim_initial : Sim Cons.initial 0 Discipline.initial where
  r := rfl
  w := rfl
  e := rfl
  ring := Ring.empty _ _ _
  full := fun _ => rfl
  plain := not_mem_nil

namespace Sim

variable {q : List UInt8}

section

variable (h : Sim s n d)
include h

theorem room : d.queue.length + d.line.length ≤ 128 := by
  have hroom := h.ring.room
  rwa [length_append, INPUT_BUF_eq] at hroom

theorem line_empty : s.e = s.w ↔ d.line = [] := by
  have hroom := h.room
  rw [← UInt32.toNat_inj, h.e, h.w, ← length_eq_zero_iff]
  omega

theorem queue_empty : s.r = s.w ↔ d.queue = [] := by
  have hroom := h.room
  rw [← UInt32.toNat_inj, h.r, h.w, ← length_eq_zero_iff]
  omega

theorem used : (s.e - s.r).toNat = d.queue.length + d.line.length := by
  have hroom := h.room
  rw [UInt32.toNat_sub, h.e, h.r]
  omega

theorem edited : (s.e - s.w).toNat = d.line.length := by
  have hroom := h.room
  rw [UInt32.toNat_sub, h.e, h.w]
  omega

theorem has_room :
    s.e - s.r < UInt32.ofNat INPUT_BUF ↔ d.queue.length + d.line.length ≠ INPUT_BUF := by
  have hroom := h.room
  have hsize : (UInt32.ofNat INPUT_BUF).toNat = 128 := rfl
  rw [UInt32.lt_iff_toNat_lt, h.used, hsize, INPUT_BUF_eq]
  omega

end

/-! ## Editing -/

section

variable (h : Sim s n d)
include h

theorem last (hl : d.line = l ++ [c]) : s.last = c := by
  have hlen : d.line.length = l.length + 1 := by rw [hl, length_append, length_singleton]
  have hidx : (s.e - 1).toNat = (n + (d.queue.length + l.length)) % 2 ^ 32 := by
    have hone : (1 : UInt32).toNat = 1 := rfl
    rw [UInt32.toNat_sub, h.e, hone]
    omega
  have hget := h.ring.get (d.queue.length + l.length) (by rw [length_append]; omega)
  unfold Cons.last
  rw [hidx, Nat.mod_mod_of_dvd _ INPUT_BUF_dvd, hget]
  simp [hl]

theorem erase (hl : d.line = l ++ [c]) : Sim s.erase n { d with line := l } where
  r := h.r
  w := h.w
  e := by
    have hlen : d.line.length = l.length + 1 := by
      rw [hl, length_append, length_singleton]
    have hone : (1 : UInt32).toNat = 1 := rfl
    change (s.e - 1).toNat = (n + d.queue.length + l.length) % 2 ^ 32
    rw [UInt32.toNat_sub, h.e, hone]
    omega
  ring := by
    have hring := h.ring
    rw [hl, ← append_assoc] at hring
    exact hring.dropLast
  full := by
    have hroom := h.room
    have hlen : d.line.length = l.length + 1 := by
      rw [hl, length_append, length_singleton]
    rw [INPUT_BUF_eq]
    intro heq
    simp only at heq
    omega
  plain := by
    intro hin
    apply h.plain
    rw [hl]
    exact mem_append_left _ hin

theorem killLine (hk : d.line.length = k) :
    Sim (Cons.killLine k s) n { d with line := [] } := by
  induction k generalizing s d with
  | zero =>
    have hline := length_eq_zero_iff.mp hk
    rwa [← hline]
  | succ k ih =>
    obtain ⟨l, c, hl⟩ : ∃ l c, d.line = l ++ [c] := by
      refine ⟨_, _, (dropLast_append_getLast (l := d.line) ?_).symm⟩
      intro hnil
      rw [hnil] at hk
      cases hk
    have hne : s.e ≠ s.w := by
      rw [Ne, h.line_empty, hl]
      exact append_ne_nil_of_right_ne_nil l (cons_ne_nil c [])
    have hc : s.last ≠ newline := by
      rw [h.last hl]
      rintro rfl
      apply h.plain
      rw [hl]
      exact mem_append_right _ mem_cons_self
    unfold Cons.killLine
    rw [if_pos ⟨hne, hc⟩]
    refine ih (d := { d with line := l }) (h.erase hl) ?_
    rw [hl, length_append, length_singleton] at hk
    exact Nat.succ.inj hk

/-! ## Storing a character -/

theorem put (hroom : d.queue.length + d.line.length ≠ INPUT_BUF) :
    Ring INPUT_BUF (s.put c).buf.get n (d.queue ++ (d.line ++ [c])) ∧
      (s.put c).e.toNat = (n + d.queue.length + (d.line ++ [c]).length) % 2 ^ 32 := by
  have hle := h.room
  constructor
  · have hslot : s.e.toNat % INPUT_BUF = (n + (d.queue ++ d.line).length) % INPUT_BUF := by
      rw [h.e, Nat.mod_mod_of_dvd _ INPUT_BUF_dvd, length_append, Nat.add_assoc]
    rw [← append_assoc]
    apply h.ring.push
    · rw [length_append]
      rw [INPUT_BUF_eq] at hroom ⊢
      omega
    · change (s.buf.set (s.e.toNat % INPUT_BUF) c).get _ = c
      rw [hslot]
      exact Bytes.get_set_self (Nat.mod_lt _ (by decide))
    intro i _ hi
    change (s.buf.set (s.e.toNat % INPUT_BUF) c).get i = _
    rw [hslot]
    exact Bytes.get_set_ne hi
  · have hone : (1 : UInt32).toNat = 1 := rfl
    change (s.e + 1).toNat = _
    rw [UInt32.toNat_add, h.e, hone, length_append, length_singleton]
    omega

theorem commit (hroom : d.queue.length + d.line.length ≠ INPUT_BUF) :
    Sim ((s.put c).commit c) n (d.store c) := by
  have hle := h.room
  obtain ⟨hring, he⟩ := h.put (c := c) hroom
  have hfull : (s.put c).e = (s.put c).r + UInt32.ofNat INPUT_BUF ↔
      d.queue.length + d.line.length + 1 = INPUT_BUF := by
    have hsize : (UInt32.ofNat INPUT_BUF).toNat = 128 := rfl
    have hr : (s.put c).r.toNat = n % 2 ^ 32 := h.r
    rw [← UInt32.toNat_inj, he, UInt32.toNat_add, hr, hsize, INPUT_BUF_eq, length_append,
      length_singleton]
    rw [INPUT_BUF_eq] at hroom
    omega
  unfold Cons.commit Discipline.store
  simp only [hfull]
  by_cases hend : c = newline ∨ c = ctrl 'D' ∨ d.queue.length + d.line.length + 1 = INPUT_BUF
  · rw [if_pos hend, if_pos hend]
    refine ⟨h.r, ?_, ?_, ?_, fun _ => rfl, not_mem_nil⟩
    · rw [length_append, ← Nat.add_assoc]
      exact he
    · rw [length_append, ← Nat.add_assoc]
      exact he
    · rw [append_nil]
      exact hring
  rw [if_neg hend, if_neg hend]
  have hne : c ≠ newline ∧ d.queue.length + d.line.length + 1 ≠ INPUT_BUF :=
    ⟨fun hc => hend (.inl hc), fun hf => hend (.inr (.inr hf))⟩
  refine ⟨h.r, h.w, he, hring, ?_, ?_⟩
  · intro heq
    simp only [length_append, length_singleton] at heq
    exact absurd heq hne.2
  intro hin
  rcases mem_append.mp hin with hin | hin
  · exact h.plain hin
  · exact hne.1 (mem_singleton.mp hin).symm

theorem consoleintr (c : UInt8) : Sim (s.consoleintr c) n (d.input c) := by
  unfold Cons.consoleintr Discipline.input
  by_cases hP : c = ctrl 'P'
  · rwa [if_pos hP, if_pos hP]
  rw [if_neg hP, if_neg hP]
  by_cases hU : c = ctrl 'U'
  · rw [if_pos hU, if_pos hU, h.edited]
    exact h.killLine rfl
  rw [if_neg hU, if_neg hU]
  by_cases hH : c = ctrl 'H' ∨ c = 0x7f
  · rw [if_pos hH, if_pos hH]
    by_cases hline : d.line = []
    · rw [if_neg (not_not.mpr (h.line_empty.mpr hline)), hline]
      rwa [dropLast_nil, ← hline]
    · rw [if_pos (mt h.line_empty.mp hline)]
      exact h.erase (dropLast_append_getLast hline).symm
  rw [if_neg hH, if_neg hH]
  by_cases hskip : c = 0 ∨ d.queue.length + d.line.length = INPUT_BUF
  · rw [if_neg (by rw [h.has_room]; tauto), if_pos hskip]
    exact h
  · rw [if_pos (by rw [h.has_room]; tauto), if_neg hskip]
    exact h.commit (not_or.mp hskip).2

/-! ## Reading -/

theorem advance (hq : d.queue = c :: q) :
    s.first = c ∧ Sim s.advance (n + 1) { d with queue := q } := by
  have hring := h.ring
  rw [hq, cons_append] at hring
  obtain ⟨hfirst, hring⟩ := hring.pop
  have hlen : d.queue.length = q.length + 1 := by rw [hq, length_cons]
  have hone : (1 : UInt32).toNat = 1 := rfl
  constructor
  · unfold Cons.first
    rw [h.r, Nat.mod_mod_of_dvd _ INPUT_BUF_dvd]
    exact hfirst
  refine ⟨?_, ?_, ?_, hring, ?_, h.plain⟩
  · change (s.r + 1).toNat = _
    rw [UInt32.toNat_add, h.r, hone]
    omega
  · change s.w.toNat = _
    rw [h.w]
    congr 1
    simp only
    omega
  · change s.e.toNat = _
    rw [h.e]
    congr 1
    simp only
    omega
  · intro heq
    have hroom := h.room
    rw [INPUT_BUF_eq] at heq
    simp only at heq
    omega

end

theorem retreat_advance (s : Cons) : s.advance.retreat = s := by
  unfold Cons.retreat Cons.advance
  simp only [UInt32.add_sub_cancel]

theorem consoleread (h : Sim s n d) (hx : x.got.length + k = x.target) :
    ∃ m, Sim (s.consoleread x k).1 m (d.read x k).1 ∧
      (s.consoleread x k).2 = (d.read x k).2 := by
  induction k generalizing s n d x with
  | zero => exact ⟨n, h, rfl⟩
  | succ k ih =>
    unfold Cons.consoleread Discipline.read
    cases hq : d.queue with
    | nil =>
      rw [if_pos (h.queue_empty.mpr hq)]
      exact ⟨n, h, rfl⟩
    | cons c q =>
      have hne : s.r ≠ s.w := by
        rw [Ne, h.queue_empty, hq]
        exact cons_ne_nil c q
      obtain ⟨hfirst, hadv⟩ := h.advance hq
      rw [if_neg hne]
      simp only [hfirst]
      by_cases hD : c = ctrl 'D'
      · rw [if_pos hD, if_pos hD]
        by_cases hgot : x.got = []
        · have hlt : ¬k + 1 < x.target := by
            rw [hgot, length_nil] at hx
            omega
          rw [if_neg hlt, if_pos hgot]
          exact ⟨n + 1, hadv, rfl⟩
        · have hlt : k + 1 < x.target := by
            have hpos := length_pos_iff.mpr hgot
            omega
          rw [if_pos hlt, if_neg hgot, retreat_advance]
          exact ⟨n, h, rfl⟩
      · rw [if_neg hD, if_neg hD]
        by_cases hnl : c = newline
        · rw [if_pos hnl, if_pos hnl]
          exact ⟨n + 1, hadv, rfl⟩
        rw [if_neg hnl, if_neg hnl]
        refine ih hadv ?_
        unfold ConsRead.take
        rw [length_append, length_singleton]
        simp only
        omega

end Sim

end Cons

/-! ## Runs -/

namespace ConsRead

structure Going (x : ConsRead) : Prop where
  count : x.got.length + x.n = x.target
  plain : newline ∉ x.got
  noEof : ctrl 'D' ∉ x.got

/-- What a call returns: at most as many characters as it was asked for, none of
them a control-D, and nothing after a newline. -/
structure Complete (x : ConsRead) : Prop where
  count : x.got.length ≤ x.target
  plain : newline ∉ x.got.dropLast
  noEof : ctrl 'D' ∉ x.got

theorem Going.start (n : Nat) : Going (ConsRead.start n) where
  count := Nat.zero_add n
  plain := not_mem_nil
  noEof := not_mem_nil

theorem Going.complete (h : Going x) : Complete x where
  count := by
    have := h.count
    omega
  plain := fun hin => h.plain (dropLast_subset _ hin)
  noEof := h.noEof

end ConsRead

namespace Discipline

def texts (l : List UInt8) : List UInt8 := l.filter fun c => c ≠ ctrl 'D'

theorem read_takes (d : Discipline) (x : ConsRead) (k : Nat) :
    ∃ taken, d.queue = taken ++ (d.read x k).1.queue ∧ (d.read x k).1.committed = d.committed ∧
      (d.read x k).2.call.got = x.got ++ texts taken := by
  induction k generalizing d x with
  | zero => exact ⟨[], rfl, rfl, (append_nil _).symm⟩
  | succ k ih =>
    unfold Discipline.read
    cases hq : d.queue with
    | nil => exact ⟨[], hq.symm, rfl, (append_nil _).symm⟩
    | cons c q =>
      simp only
      by_cases hD : c = ctrl 'D'
      · rw [if_pos hD]
        by_cases hgot : x.got = []
        · rw [if_pos hgot]
          refine ⟨[c], rfl, rfl, ?_⟩
          rw [hD]
          exact (append_nil _).symm
        · rw [if_neg hgot]
          exact ⟨[], hq.symm, rfl, (append_nil _).symm⟩
      rw [if_neg hD]
      have htexts : ∀ l, texts (c :: l) = c :: texts l := fun l => by
        unfold texts
        rw [filter_cons_of_pos (by simpa using hD)]
      by_cases hnl : c = newline
      · rw [if_pos hnl]
        refine ⟨[c], rfl, rfl, ?_⟩
        rw [htexts]
        rfl
      rw [if_neg hnl]
      obtain ⟨taken, hqueue, hcomm, hgot⟩ := ih { d with queue := q } (x.take k c)
      refine ⟨c :: taken, ?_, hcomm, ?_⟩
      · rw [cons_append, ← hqueue]
      rw [hgot, htexts]
      unfold ConsRead.take
      simp

theorem read_call (hx : x.Going) (hk : x.n = k) : match (d.read x k).2 with
    | .done y => y.Complete
    | .sleep y => y.Going := by
  induction k generalizing d x with
  | zero => exact hx.complete
  | succ k ih =>
    unfold Discipline.read
    cases hq : d.queue with
    | nil => exact hx
    | cons c q =>
      simp only
      by_cases hD : c = ctrl 'D'
      · rw [if_pos hD]
        by_cases hgot : x.got = []
        · rw [if_pos hgot]
          exact hx.complete
        · rw [if_neg hgot]
          exact hx.complete
      rw [if_neg hD]
      have hcount : (x.got ++ [c]).length + k = x.target := by
        have := hx.count
        rw [length_append, length_singleton]
        omega
      have hnoEof : ctrl 'D' ∉ x.got ++ [c] := by
        intro hin
        rcases mem_append.mp hin with hin | hin
        · exact hx.noEof hin
        · exact hD (mem_singleton.mp hin).symm
      by_cases hnl : c = newline
      · rw [if_pos hnl]
        refine ⟨?_, ?_, hnoEof⟩
        · exact Nat.le_of_add_right_le (Nat.le_of_eq hcount)
        change newline ∉ (x.got ++ [c]).dropLast
        rw [dropLast_concat]
        exact hx.plain
      · rw [if_neg hnl]
        refine ih ⟨hcount, ?_, hnoEof⟩ rfl
        intro hin
        rcases mem_append.mp hin with hin | hin
        · exact hx.plain hin
        · exact hnl (mem_singleton.mp hin).symm

theorem store_commits (d : Discipline) (c : UInt8) :
    ∃ l, (d.store c).queue = d.queue ++ l ∧ (d.store c).committed = d.committed ++ l := by
  unfold store
  split
  · exact ⟨_, rfl, rfl⟩
  · exact ⟨[], (append_nil _).symm, (append_nil _).symm⟩

theorem input_commits (d : Discipline) (c : UInt8) :
    ∃ l, (d.input c).queue = d.queue ++ l ∧ (d.input c).committed = d.committed ++ l := by
  have hsame : ∃ l, d.queue = d.queue ++ l ∧ d.committed = d.committed ++ l :=
    ⟨[], (append_nil _).symm, (append_nil _).symm⟩
  unfold input
  split
  · exact hsame
  split
  · exact hsame
  split
  · exact hsame
  split
  · exact hsame
  · exact d.store_commits _

end Discipline

namespace Tty

variable {ι : Type} {s u : Tty ι Cons} {t : Tty ι Discipline} {p : ι} {a : TtyAct ι}

structure Good (t : Tty ι Discipline) : Prop where
  going : ∀ p x, t.call p = some x → x.Going
  complete : ∀ x ∈ t.returned, x.Complete
  delivered : ∃ taken, t.dev.committed = taken ++ t.dev.queue ∧
    t.delivered = Discipline.texts taken

theorem good_init : Good (init discipline : Tty ι Discipline) where
  going := fun _ _ h => by cases h
  complete := fun _ h => absurd h not_mem_nil
  delivered := ⟨[], rfl, rfl⟩

namespace Good

theorem intr (h : Good t) (c : UInt8) : Good { t with dev := t.dev.input c } where
  going := h.going
  complete := h.complete
  delivered := by
    obtain ⟨taken, hcomm, hdel⟩ := h.delivered
    obtain ⟨l, hqueue, hnew⟩ := t.dev.input_commits c
    refine ⟨taken, ?_, hdel⟩
    rw [hnew, hqueue, hcomm, append_assoc]

variable [DecidableEq ι]

theorem read (h : Good t) (p : ι) (n : Nat) :
    Good { t with call := update t.call p (some (ConsRead.start n)) } where
  going := by
    intro q x hq
    simp only [update_apply] at hq
    split at hq
    · cases hq
      exact ConsRead.Going.start n
    · exact h.going q x hq
  complete := h.complete
  delivered := h.delivered

theorem run (h : Good t) (hx : t.call p = some x) : Good (t.runRead discipline p x) := by
  have hcall := Discipline.read_call (d := t.dev) (h.going p x hx) rfl
  obtain ⟨taken, hcomm, hdel⟩ := h.delivered
  obtain ⟨more, hqueue, hsame, hgot⟩ := t.dev.read_takes x x.n
  have hdelivered : ∃ taken, (t.dev.read x x.n).1.committed = taken ++ (t.dev.read x x.n).1.queue ∧
      t.delivered ++ (t.dev.read x x.n).2.call.got.drop x.got.length = Discipline.texts taken := by
    refine ⟨taken ++ more, ?_, ?_⟩
    · rw [hsame, hcomm, append_assoc, ← hqueue]
    · rw [hgot, drop_left, hdel]
      exact (filter_append _ _).symm
  unfold runRead finish
  simp only [discipline]
  cases hnext : (t.dev.read x x.n).2 with
  | done y =>
    rw [hnext] at hcall hdelivered
    refine ⟨?_, ?_, hdelivered⟩
    · intro q z hz
      simp only [update_apply] at hz
      split at hz
      · cases hz
      · exact h.going q z hz
    · intro z hz
      rcases mem_append.mp hz with hz | hz
      · exact h.complete z hz
      · rw [mem_singleton.mp hz]
        exact hcall
  | sleep y =>
    rw [hnext] at hcall hdelivered
    refine ⟨?_, h.complete, hdelivered⟩
    intro q z hz
    simp only [update_apply] at hz
    split at hz
    · cases hz
      exact hcall
    · exact h.going q z hz

end Good

structure Follows (s : Tty ι Cons) (t : Tty ι Discipline) : Prop where
  sim : ∃ n, s.dev.Sim n t.dev
  good : Good t
  call : t.call = s.call
  returned : t.returned = s.returned
  delivered : t.delivered = s.delivered

variable [DecidableEq ι]

theorem Follows.step (h : Follows s t)
    (hstep : s.step console a = some u) : ∃ v, t.step discipline a = some v ∧ Follows u v := by
  obtain ⟨⟨n, hsim⟩, hgood, hcall, hreturned, hdelivered⟩ := h
  cases a with
  | intr c =>
    cases hstep
    exact ⟨_, rfl, ⟨n, hsim.consoleintr c⟩, hgood.intr c, hcall, hreturned, hdelivered⟩
  | read p k =>
    cases hp : s.call p with
    | some x => simp only [Tty.step, hp, reduceCtorEq] at hstep
    | none =>
      simp only [Tty.step, hp] at hstep
      cases hstep
      refine ⟨{ t with call := update t.call p (some (ConsRead.start k)) }, ?_,
        ⟨n, hsim⟩, hgood.read p k, ?_, hreturned, hdelivered⟩
      · simp only [Tty.step, hcall, hp]
      · simp only [hcall]
  | run p =>
    cases hp : s.call p with
    | none => simp only [Tty.step, hp, reduceCtorEq] at hstep
    | some x =>
      simp only [Tty.step, hp] at hstep
      cases hstep
      have hx : t.call p = some x := by rw [hcall, hp]
      obtain ⟨m, hsim', hnext⟩ := hsim.consoleread (hgood.going p x hx).count
      refine ⟨_, by simp only [Tty.step, hx], ⟨m, ?_⟩, hgood.run hx, ?_, ?_, ?_⟩
      all_goals unfold runRead finish
      all_goals simp only [console, discipline, hnext]
      · cases (t.dev.read x x.n).2 <;> exact hsim'
      · cases (t.dev.read x x.n).2 <;> simp only [hcall]
      · cases (t.dev.read x x.n).2 <;> simp only [hreturned]
      · cases (t.dev.read x x.n).2 <;> simp only [hdelivered]

/-- Whatever characters arrive and whoever reads, the console does what its
discipline does: the ring is the queue and after it the line, a call that has
returned got a piece of a line, and the characters delivered are those committed
that are no longer in the queue, without the control-Ds. -/
theorem console_line_discipline {acts : List (TtyAct ι)}
    (hrun : exec (step console) (fun _ _ => true) (init console) acts = some s) :
    ∃ d n, exec (step discipline) (fun _ _ => true) (init discipline) acts =
        some ⟨d, s.call, s.returned, s.delivered⟩ ∧
      s.dev.Sim n d ∧ (∀ x ∈ s.returned, x.Complete) ∧
      ∃ taken, d.committed = taken ++ d.queue ∧ s.delivered = Discipline.texts taken := by
  have hinit : Follows (init console : Tty ι Cons) (init discipline) :=
    ⟨⟨0, Cons.sim_initial⟩, good_init, rfl, rfl, rfl⟩
  have hstep : ∀ (s : Tty ι Cons) (t : Tty ι Discipline) a u, Follows s t →
      s.step console a = some u → ∃ v, t.step discipline a = some v ∧ Follows u v :=
    fun _ _ _ _ h hs => h.step hs
  obtain ⟨t, ht, ⟨n, hsim⟩, hgood, hcall, hreturned, hdelivered⟩ :=
    exec_simulates hstep hinit hrun
  refine ⟨t.dev, n, ?_, hsim, ?_, ?_⟩
  · rw [ht, ← hcall, ← hreturned, ← hdelivered]
  · rw [← hreturned]
    exact hgood.complete
  · rw [← hdelivered]
    exact hgood.delivered

/-- A reader waits, and gets the line once it is complete: `a`, then `b` and a
backspace, then a newline. -/
theorem console_line_discipline_line : ∃ s d n, exec (step console) (fun _ _ => true) (init console)
      [.intr 97, .read () 5, .run (), .intr 98, .intr 8, .intr 13, .run ()] = some s ∧
    s.delivered = [97, newline] ∧ s.dev.Sim n d ∧ ∀ x ∈ s.returned, x.Complete := by
  have hrun : (exec (step console) (fun _ _ => true) (init console)
      [.intr 97, .read () 5, .run (), .intr 98, .intr 8, .intr 13, .run ()]).map
      (fun s => s.delivered) = some [97, newline] := by decide +kernel
  obtain ⟨s, hs, hdel⟩ := Option.map_eq_some_iff.mp hrun
  obtain ⟨d, n, _, hsim, hcomplete, _⟩ := console_line_discipline hs
  exact ⟨s, d, n, hs, hdel, hsim, hcomplete⟩

end Tty

end Xv6.Kernel
