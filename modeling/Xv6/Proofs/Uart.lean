import Xv6.Kernel.Uart
/-!
# Console output and the count of locks

`consolewrite` holds `cons.lock` when it calls `uartputc`, which sleeps when the
transmit buffer is full.  In `sched` the cpu then still has two locks, its own and
`cons.lock`, so a write that meets a full buffer panics and every other write
returns.
-/

namespace Xv6.Kernel

open Xv6.Lib Function

variable {c : UInt8} {src : Nat → Option UInt8} {n i : Nat}

/-! ## The transmit buffer -/

namespace Uart

variable {u v x : Uart}

def pump : List Bool → Uart → Uart
  | [], u => { u with lsr := [] }
  | idle :: rest, u => if u.isEmpty = true then { u with lsr := idle :: rest }
    else if idle = true then pump rest u.send else { u with lsr := rest }

def put (u : Uart) (c : UInt8) : Uart := (u.append c).pump u.lsr

/-- No character of a write meets a full buffer. -/
def NeverFull (src : Nat → Option UInt8) : Nat → Nat → Uart → Prop
  | 0, _, _ => True
  | n + 1, i, u => match src i with
    | none => True
    | some c =>
      (u.interrupts u.irq).isFull = false ∧
        NeverFull src n (i + 1) ((u.interrupts u.irq).put c)

def used (u : Uart) : Nat := (u.w + UART_TX_BUF_SIZE - u.r) % UART_TX_BUF_SIZE

structure InRange (u : Uart) : Prop where
  w : u.w < UART_TX_BUF_SIZE
  r : u.r < UART_TX_BUF_SIZE

theorem UART_TX_BUF_SIZE_eq : UART_TX_BUF_SIZE = 32 := rfl

structure Drains (u v : Uart) : Prop where
  range : InRange v
  used : v.used ≤ u.used

theorem Drains.refl (h : InRange u) : Drains u u := ⟨h, le_rfl⟩

theorem Drains.trans (h : Drains u v) (h' : Drains v x) : Drains u x :=
  ⟨h'.range, h'.used.trans h.used⟩

section

variable (h : InRange u)
include h

theorem send_drains (hne : u.isEmpty = false) : Drains u u.send := by
  have hwr : u.w ≠ u.r := of_decide_eq_false hne
  obtain ⟨hw, hr⟩ := h
  rw [UART_TX_BUF_SIZE_eq] at hw hr
  refine ⟨⟨hw, Nat.mod_lt _ (by decide)⟩, ?_⟩
  simp only [used, send, UART_TX_BUF_SIZE_eq]
  omega

theorem start_drains (l : List Bool) : Drains u (u.start l) := by
  induction l generalizing u with
  | nil => exact Drains.refl h
  | cons idle rest ih =>
    unfold start
    by_cases he : u.isEmpty = true
    · rw [if_pos he]
      exact Drains.refl h
    rw [if_neg he]
    cases idle with
    | false => exact Drains.refl h
    | true =>
      have hsend := send_drains h (Bool.eq_false_of_not_eq_true he)
      exact hsend.trans (ih hsend.range)

theorem pump_drains (l : List Bool) : Drains u (u.pump l) := by
  induction l generalizing u with
  | nil => exact ⟨⟨h.w, h.r⟩, le_rfl⟩
  | cons idle rest ih =>
    unfold pump
    by_cases he : u.isEmpty = true
    · rw [if_pos he]
      exact ⟨⟨h.w, h.r⟩, le_rfl⟩
    rw [if_neg he]
    cases idle with
    | false => exact ⟨⟨h.w, h.r⟩, le_rfl⟩
    | true =>
      have hsend := send_drains h (Bool.eq_false_of_not_eq_true he)
      exact hsend.trans (ih hsend.range)

theorem interrupts_drains (l : List (Option (List Bool))) : Drains u (u.interrupts l) := by
  induction l generalizing u with
  | nil => exact ⟨⟨h.w, h.r⟩, le_rfl⟩
  | cons turn rest ih =>
    cases turn with
    | none => exact ⟨⟨h.w, h.r⟩, le_rfl⟩
    | some answers =>
      have hstart := start_drains h answers
      exact hstart.trans (ih hstart.range)

theorem append_used (hroom : u.used + 1 < UART_TX_BUF_SIZE) (c : UInt8) :
    u.isFull = false ∧ InRange (u.append c) ∧ (u.append c).used = u.used + 1 := by
  obtain ⟨hw, hr⟩ := h
  rw [UART_TX_BUF_SIZE_eq] at hw hr
  simp only [used, UART_TX_BUF_SIZE_eq] at hroom
  refine ⟨decide_eq_false ?_, ⟨Nat.mod_lt _ (by decide), hr⟩, ?_⟩
  · rw [UART_TX_BUF_SIZE_eq]
    omega
  · simp only [used, append, UART_TX_BUF_SIZE_eq]
    omega

/-- A write for which there is room does not meet a full buffer, whatever the device
answers and whenever it interrupts. -/
theorem neverFull_of_room (hroom : u.used + n < UART_TX_BUF_SIZE) : NeverFull src n i u := by
  induction n generalizing u i with
  | zero => trivial
  | succ n ih =>
    unfold NeverFull
    cases src i with
    | none => trivial
    | some c =>
      have hirq := interrupts_drains h u.irq
      have hle := hirq.used
      obtain ⟨hfull, hrange, hused⟩ := append_used hirq.range (by omega) c
      have hpump : Drains ((u.interrupts u.irq).append c) ((u.interrupts u.irq).put c) :=
        pump_drains hrange _
      have hle' := hpump.used
      exact ⟨hfull, ih hpump.range (by omega)⟩

end

end Uart

/-! ## Locks -/

namespace Out

variable {E : OutStop → Prop} {s : Out} {lk : OutLock} {l : List Bool} {Q : Unit → Out → Prop}

@[simp] theorem setHeld_self (s : Out) (lk : OutLock) (b : Bool) : (s.setHeld lk b).held lk = b :=
  update_self ..

theorem acquire_wp (hfree : s.held lk = false)
    (hQ : Q () (s.pushed.setHeld lk true)) : Wp E (acquire lk) Q s := by
  unfold acquire pushOff
  rw [Wp.bind_iff, Wp.modify_iff, Wp.bind_iff, Wp.get_iff, Wp.ite_iff]
  have hfree' : s.pushed.held lk = false := hfree
  refine ⟨fun hheld => ?_, fun _ => hQ⟩
  rw [hfree'] at hheld
  cases hheld

theorem release_wp (hheld : s.held lk = true) (hintr : s.intr = false)
    (hnoff : 0 < s.noff) (hQ : Q () (s.setHeld lk false).popped) : Wp E (release lk) Q s := by
  unfold release popOff
  rw [Wp.bind_iff, Wp.get_iff, Wp.ite_iff]
  refine ⟨fun hfree => ?_, fun _ => ?_⟩
  · rw [hheld] at hfree
    cases hfree
  rw [Wp.bind_iff, Wp.modify_iff, Wp.bind_iff, Wp.get_iff, Wp.ite_iff, Wp.ite_iff]
  refine ⟨fun hon => ?_, fun _ => ⟨fun hlt => ?_, fun _ => hQ⟩⟩
  · have hoff : (s.setHeld lk false).intr = false := hintr
    rw [hoff] at hon
    cases hon
  · have hpos : 0 < (s.setHeld lk false).noff := hnoff
    omega

structure Inside (s : Out) : Prop where
  intr : s.intr = false
  noff : 0 < s.noff

theorem acquire_release (lk : OutLock) (h : Inside s) (hfree : s.held lk = false) (u : Uart) :
    ({ s.pushed.setHeld lk true with uart := u }.setHeld lk false).popped =
      { s with uart := u } := by
  obtain ⟨hintr, hnoff⟩ := h
  obtain ⟨noff, intena, intr, held, state, uart⟩ := s
  simp only at hintr hnoff hfree
  have hheld : update (update held lk true) lk false = held := by
    rw [update_idem, ← hfree, update_eq_self]
  simp only [pushed, setHeld, popped, hheld, hintr, Nat.add_sub_cancel, hnoff.ne',
    false_and, if_false]

theorem wakeup_wp (h : Inside s) (hfree : s.held .proc = false)
    (hQ : Q () s) : Wp E wakeup Q s := by
  unfold wakeup
  refine Wp.bind (acquire_wp hfree ?_)
  refine release_wp (setHeld_self ..) rfl (Nat.succ_pos _) ?_
  have hback := acquire_release .proc h hfree s.uart
  have hsame : { s.pushed.setHeld .proc true with uart := s.uart } =
      s.pushed.setHeld .proc true := rfl
  rw [hsame] at hback
  rwa [hback]

theorem uartstart_wp (h : Inside s) (hfree : s.held .proc = false)
    (hQ : Q () { s with uart := s.uart.pump l }) : Wp E (uartstart l) Q s := by
  induction l generalizing s with
  | nil => exact hQ
  | cons idle rest ih =>
    unfold uartstart
    unfold Uart.pump at hQ
    rw [Wp.bind_iff, Wp.get_iff, Wp.ite_iff]
    refine ⟨fun he => ?_, fun he => ?_⟩
    · rw [if_pos he] at hQ
      exact hQ
    rw [if_neg he] at hQ
    rw [Wp.ite_iff]
    refine ⟨fun hidle => ?_, fun hidle => ?_⟩
    · rw [if_pos hidle] at hQ
      rw [Wp.bind_iff, Wp.modify_iff, Wp.bind_iff]
      have hin : Inside { s with uart := s.uart.send } := ⟨h.intr, h.noff⟩
      exact wakeup_wp hin hfree (ih hin hfree hQ)
    · rw [if_neg hidle] at hQ
      exact hQ

theorem sleep_wp (hproc : s.held .proc = false)
    (hE : E .schedLocks) (huart : s.held .uart = true) (hnoff : 2 ≤ s.noff) : Wp E sleep Q s := by
  unfold sleep
  refine Wp.bind (acquire_wp hproc ?_)
  refine Wp.bind (release_wp ?_ rfl (Nat.succ_pos _) ?_)
  · change update s.held .proc true .uart = true
    rw [update_of_ne (by decide)]
    exact huart
  rw [Wp.bind_iff, Wp.modify_iff, Wp.bind_iff]
  unfold sched
  rw [Wp.bind_iff, Wp.get_iff, Wp.ite_iff]
  refine ⟨fun hfree => ?_, fun _ => ?_⟩
  · have hheld : update (update s.held .proc true) .uart false .proc = true := by
      rw [update_of_ne (by decide), update_self]
    have hfree' : update (update s.held .proc true) .uart false .proc = false :=
      hfree
    rw [hheld] at hfree'
    cases hfree'
  rw [Wp.ite_iff]
  refine ⟨fun _ => hE, fun hone => ?_⟩
  have hcount : s.noff + 1 - 1 = 1 := of_not_not hone
  omega

structure Writing (s : Out) : Prop where
  intr : s.intr = false
  noff : s.noff = 1
  uart : s.held .uart = false
  proc : s.held .proc = false

theorem uartputc_wp (h : Writing s)
    (hfull : (s.uart.interrupts s.uart.irq).isFull = true → E .schedLocks)
    (hput : (s.uart.interrupts s.uart.irq).isFull = false →
      Q () { s with uart := (s.uart.interrupts s.uart.irq).put c }) : Wp E (uartputc c) Q s := by
  unfold uartputc
  rw [Wp.bind_iff, Wp.modify_iff, Wp.bind_iff]
  generalize s.uart.interrupts s.uart.irq = u at hfull hput
  refine acquire_wp h.uart ?_
  have hin : Inside (({ s with uart := u } : Out).pushed.setHeld .uart true) :=
    ⟨rfl, Nat.succ_pos _⟩
  have hproc : (({ s with uart := u } : Out).pushed.setHeld .uart true).held .proc = false := by
    change update s.held .uart true .proc = false
    rw [update_of_ne (by decide)]
    exact h.proc
  rw [Wp.bind_iff, Wp.get_iff]
  unfold putLoop
  rw [Wp.bind_iff, Wp.get_iff, Wp.ite_iff]
  refine ⟨fun he => ?_, fun he => ?_⟩
  · refine Wp.bind (sleep_wp hproc (hfull he) (setHeld_self ..) ?_)
    have hnoff : s.noff = 1 := h.noff
    change 2 ≤ s.noff + 1
    omega
  rw [Wp.bind_iff, Wp.modify_iff]
  refine Wp.bind (uartstart_wp ⟨hin.intr, hin.noff⟩ hproc ?_)
  have hheld : update s.held .uart true .uart = true := update_self ..
  refine release_wp hheld rfl (Nat.succ_pos _) ?_
  have hback := acquire_release (s := { s with uart := u }) .uart
    ⟨h.intr, h.noff ▸ Nat.one_pos⟩ h.uart (u.put c)
  have hQ := hput (Bool.eq_false_of_not_eq_true he)
  exact hback ▸ hQ

theorem writeLoop_wp (h : Writing s) :
    Wp (fun e => e = .schedLocks ∧ ¬s.uart.NeverFull src n i) (writeLoop src n i)
      (fun j t => s.uart.NeverFull src n i ∧ j ≤ i + n ∧ ∃ u, t = { s with uart := u }) s := by
  induction n generalizing s i with
  | zero => exact ⟨trivial, le_rfl, s.uart, rfl⟩
  | succ n ih =>
    unfold writeLoop Uart.NeverFull
    cases src i with
    | none => exact ⟨trivial, Nat.le_add_right _ _, s.uart, rfl⟩
    | some c =>
      simp only
      refine Wp.bind (uartputc_wp h (fun hfull => ⟨rfl, fun hnever => ?_⟩) fun hroom => ?_)
      · rw [hfull] at hnever
        cases hnever.1
      have hnext : Writing { s with uart := (s.uart.interrupts s.uart.irq).put c } :=
        ⟨h.intr, h.noff, h.uart, h.proc⟩
      refine (ih (i := i + 1) hnext).mono ?_ ?_
      · rintro e ⟨he, hnot⟩
        exact ⟨he, fun hnever => hnot hnever.2⟩
      · rintro j t ⟨hnever, hj, u, ht⟩
        exact ⟨⟨hroom, hnever⟩, by omega, u, ht⟩

structure Outside (s : Out) : Prop where
  noff : s.noff = 0
  held : ∀ lk, s.held lk = false

/-- A write that never meets a full transmit buffer returns, without a call of
`sched` and with the locks as before; any other write panics in `sched`. -/
theorem consolewrite_sched (h : Outside s) :
    (s.uart.NeverFull src n 0 → ∃ i t, consolewrite src n s = .ok (i, t) ∧ i ≤ n ∧ Outside t) ∧
      (¬s.uart.NeverFull src n 0 → consolewrite src n s = .error .schedLocks) := by
  have hwp : Wp (fun e => e = .schedLocks ∧ ¬s.uart.NeverFull src n 0) (consolewrite src n)
      (fun i t => s.uart.NeverFull src n 0 ∧ i ≤ n ∧ Outside t) s := by
    unfold consolewrite
    refine Wp.bind (acquire_wp (h.held .cons) ?_)
    have hother : ∀ lk, lk ≠ .cons → (s.pushed.setHeld .cons true).held lk = false := by
      intro lk hne
      change update s.held .cons true lk = false
      rw [update_of_ne hne]
      exact h.held lk
    have hnoff : s.noff + 1 = 1 := by rw [h.noff]
    have hwriting : Writing (s.pushed.setHeld .cons true) :=
      ⟨rfl, hnoff, hother .uart (by decide), hother .proc (by decide)⟩
    refine Wp.bind ((writeLoop_wp hwriting).post ?_)
    rintro i t ⟨hnever, hi, u, rfl⟩
    rw [Wp.bind_iff]
    have hheld : update s.held .cons true .cons = true := update_self ..
    refine release_wp hheld rfl (Nat.succ_pos _) ⟨hnever, by omega, ?_, ?_⟩
    · change s.noff + 1 - 1 = 0
      rw [hnoff]
    intro lk
    change update (update s.held .cons true) .cons false lk = false
    rw [update_idem]
    by_cases hlk : lk = .cons
    · rw [hlk, update_self]
    · rw [update_of_ne hlk]
      exact h.held lk
  constructor
  · intro hnever
    cases hrun : consolewrite src n s with
    | error e => exact absurd hnever (hwp.of_error hrun).2
    | ok r =>
      obtain ⟨_, hi, hout⟩ := hwp.of_ok hrun
      exact ⟨r.1, r.2, rfl, hi, hout⟩
  · intro hnot
    cases hrun : consolewrite src n s with
    | error e => rw [(hwp.of_error hrun).1]
    | ok r => exact absurd (hwp.of_ok hrun).1 hnot

def writer (lsr : List Bool) : Out where
  noff := 0
  intena := false
  intr := true
  held := fun _ => false
  state := .running
  uart :=
    { buf := Bytes.zero
      w := 0
      r := 0
      thr := []
      lsr := lsr
      irq := [] }

/-- Thirty-one characters fit into the buffer of a device that stays busy. -/
theorem consolewrite_sched_fits : ∃ i t,
    consolewrite (fun _ => some 97) 31 (writer []) = .ok (i, t) ∧ Outside t := by
  have hnever : (writer []).uart.NeverFull (fun _ => some 97) 31 0 :=
    Uart.neverFull_of_room ⟨by decide, by decide⟩ (by decide)
  obtain ⟨i, t, hrun, _, hout⟩ :=
    (consolewrite_sched (s := writer []) ⟨rfl, fun _ => rfl⟩).1 hnever
  exact ⟨i, t, hrun, hout⟩

/-- The thirty-second character meets a full buffer. -/
theorem consolewrite_panics : (match consolewrite (fun _ => some 97) 32 (writer []) with
    | .ok _ => none
    | .error e => some e.text) = some "sched locks" := by
  decide +kernel

end Out

end Xv6.Kernel
