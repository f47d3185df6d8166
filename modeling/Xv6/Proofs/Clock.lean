import Xv6.Kernel.Clock
import Xv6.Lib.Numeral
/-!
# How long `sys_sleep` sleeps

The difference of the tick counter survives a wrap of the counter, but it is compared
with the argument as an unsigned number.
-/

namespace Xv6.Kernel

open Xv6.Lib

namespace Clock

variable {c t : Clock} {n : Int32} {naps : List Nap} {j k : Nat} {ticks0 : UInt32}

def after (c : Clock) (naps : List Nap) (k : Nat) : Clock := (naps.take k).foldl sleep c

@[simp] theorem after_zero (c : Clock) (naps : List Nap) : c.after naps 0 = c := rfl

@[simp] theorem after_succ (c : Clock) (nap : Nap) (naps : List Nap) (k : Nat) :
    c.after (nap :: naps) (k + 1) = (c.sleep nap).after naps k := rfl

theorem iterate_clockintr (c : Clock) (i : Nat) : clockintr^[i] c =
      { c with ticks := c.ticks + UInt32.ofNat i, elapsed := c.elapsed + i } := by
  induction i generalizing c with
  | zero => simp
  | succ i ih =>
    rw [Function.iterate_succ_apply, ih, clockintr, UInt32.ofNat_add]
    simp only [mk.injEq, true_and, and_true]
    constructor
    · rw [UInt32.add_comm (UInt32.ofNat i), ← UInt32.add_assoc]
      rfl
    · omega

theorem sleep_sleeps (c : Clock) (nap : Nap) : (c.sleep nap).sleeps = c.sleeps + 1 := by
  unfold sleep
  rw [iterate_clockintr]
  split_ifs <;> rfl

def Counts (ticks0 : UInt32) (c : Clock) : Prop := c.ticks = ticks0 + UInt32.ofNat c.elapsed

theorem Counts.sleep (h : Counts ticks0 c) (nap : Nap) : Counts ticks0 (c.sleep nap) := by
  have hcount : Counts ticks0 (clockintr^[nap.clockintrs] { c with sleeps := c.sleeps + 1 }) := by
    rw [iterate_clockintr, Counts, UInt32.ofNat_add, ← UInt32.add_assoc]
    exact congrArg (· + _) h
  unfold Clock.sleep
  split_ifs
  · exact hcount
  · exact hcount

theorem Counts.after (h : Counts ticks0 c) (naps : List Nap) (k : Nat) :
    Counts ticks0 (c.after naps k) := by
  unfold Clock.after
  induction naps.take k generalizing c with
  | nil => exact h
  | cons nap naps ih => exact ih (h.sleep nap)

theorem Counts.diff (h : Counts ticks0 c) : (c.ticks - ticks0).toNat = c.elapsed % 2 ^ 32 := by
  rw [h, UInt32.add_comm, UInt32.add_sub_cancel, UInt32.toNat_ofNat']

theorem after_sleeps (c : Clock) (hk : k ≤ naps.length) :
    (c.after naps k).sleeps = c.sleeps + k := by
  induction naps generalizing c k with
  | nil =>
    obtain rfl := Nat.le_zero.mp hk
    rfl
  | cons nap naps ih =>
    cases k with
    | zero => rfl
    | succ k =>
      rw [after_succ, ih _ (Nat.le_of_succ_le_succ hk), sleep_sleeps]
      omega

theorem after_inj (hj : j ≤ naps.length) (hk : k ≤ naps.length)
    (h : c.after naps j = c.after naps k) : j = k := by
  have hsleeps := congrArg sleeps h
  rw [after_sleeps c hj, after_sleeps c hk] at hsleeps
  exact Nat.add_left_cancel hsleeps

/-- The checks that `sys_sleep` makes when it returns 0 at check `k`. -/
structure ReturnsAt (n : Int32) (ticks0 : UInt32) (naps : List Nap) (c : Clock) (k : Nat) :
    Prop where
  le : k ≤ naps.length
  done : ¬(c.after naps k).ticks - ticks0 < n.toUInt32
  before : ∀ j, j < k →
    (c.after naps j).ticks - ticks0 < n.toUInt32 ∧ (c.after naps j).killed = false

theorem ReturnsAt.sleepLoop_eq (h : ReturnsAt n ticks0 naps c k) :
    sleepLoop n ticks0 naps c = some (0, c.after naps k) := by
  induction k generalizing naps c with
  | zero =>
    unfold sleepLoop
    exact if_neg h.done
  | succ k ih =>
    obtain ⟨hlt, hkill⟩ := h.before 0 (Nat.succ_pos k)
    cases naps with
    | nil => exact absurd h.le (Nat.not_succ_le_zero k)
    | cons nap naps =>
      rw [after_zero] at hlt hkill
      rw [sleepLoop, if_pos hlt, hkill, if_neg Bool.false_ne_true, after_succ]
      exact ih ⟨Nat.le_of_succ_le_succ h.le, h.done,
        fun j hj => h.before (j + 1) (Nat.succ_lt_succ hj)⟩

theorem exists_returnsAt (h : sleepLoop n ticks0 naps c = some (0, t)) :
    ∃ k, ReturnsAt n ticks0 naps c k ∧ t = c.after naps k := by
  induction naps generalizing c with
  | nil =>
    rw [sleepLoop] at h
    split_ifs at h with hlt hkill
    · simp at h
    · obtain rfl : c = t := by simpa using h
      exact ⟨0, ⟨Nat.le_refl 0, hlt, fun j hj => absurd hj (Nat.not_lt_zero j)⟩, rfl⟩
  | cons nap naps ih =>
    rw [sleepLoop] at h
    split_ifs at h with hlt hkill
    · simp at h
    · obtain ⟨k, hk, rfl⟩ := ih h
      refine ⟨k + 1, ⟨Nat.succ_le_succ hk.le, hk.done, fun j hj => ?_⟩, rfl⟩
      cases j with
      | zero => exact ⟨hlt, Bool.eq_false_iff.mpr hkill⟩
      | succ j => exact hk.before j (Nat.lt_of_succ_lt_succ hj)
    · obtain rfl : c = t := by simpa using h
      exact ⟨0, ⟨Nat.zero_le _, hlt, fun j hj => absurd hj (Nat.not_lt_zero j)⟩, rfl⟩

/-- As long as the argument is not negative, a check compares it with the ticks that
have elapsed, up to wrapping. -/
theorem Counts.check_iff (h : Counts ticks0 c) (hn : 0 ≤ n.toInt) :
    c.ticks - ticks0 < n.toUInt32 ↔ ((c.elapsed % 2 ^ 32 : Nat) : Int) < n.toInt := by
  rw [UInt32.lt_iff_toNat_lt, h.diff, ← toNat_toUInt32_of_nonneg hn, Int.ofNat_lt]

theorem counts_entered (c : Clock) : Counts c.ticks c.entered := (UInt32.add_zero _).symm

/-- Check `k` is the first one at which `max(n, 0)` ticks have elapsed since entry. -/
structure FirstDue (n : Int32) (naps : List Nap) (c : Clock) (k : Nat) : Prop where
  le : k ≤ naps.length
  due : max n.toInt 0 ≤ (c.entered.after naps k).elapsed
  first : ∀ j, j < k → (c.entered.after naps j).elapsed < max n.toInt 0

theorem firstDue_zero (naps : List Nap) (c : Clock) (hn : n.toInt ≤ 0) : FirstDue n naps c 0 :=
  ⟨Nat.zero_le _, max_le (hn.trans (Int.natCast_nonneg _)) (Int.natCast_nonneg _),
    fun j hj => absurd hj (Nat.not_lt_zero j)⟩

/-- `sys_sleep` returns 0 at the first check at which the time is over, and does not
sleep at all if there is no time to wait. -/
structure Sleeps (a0 : UInt64) (naps : List Nap) (c : Clock) : Prop where
  returns : ∀ k, FirstDue (argint a0) naps c k →
    sysSleep a0 naps c = some (0, c.entered.after naps k)
  awake : (argint a0).toInt ≤ 0 → ∃ r, sysSleep a0 naps c = some (r, c.entered)

/-- It does so exactly when the argument is not negative, the process is not killed
before that, and the counter has not gone round past the argument again. -/
theorem sysSleep_iff (a0 : UInt64) (naps : List Nap) (c : Clock) : Sleeps a0 naps c ↔
      0 ≤ (argint a0).toInt ∧
        ∀ k, FirstDue (argint a0) naps c k →
          (∀ j, j < k → (c.entered.after naps j).killed = false) ∧
            (argint a0).toInt ≤ ((c.entered.after naps k).elapsed % 2 ^ 32 : Nat) := by
  have hcount := fun k => (counts_entered c).after naps k
  constructor
  · intro h
    have hn : 0 ≤ (argint a0).toInt := by
      by_contra hneg
      have hdue := firstDue_zero naps c (not_le.mp hneg).le
      obtain ⟨k, hk, hsame⟩ := exists_returnsAt (h.returns 0 hdue)
      obtain rfl := after_inj hdue.le hk.le hsame
      -- the first check compares 0 with a large unsigned number
      refine hk.done ?_
      rw [after_zero, UInt32.lt_iff_toNat_lt, (counts_entered c).diff]
      have hbig := toNat_toUInt32 (argint a0)
      rw [if_pos (not_le.mp hneg)] at hbig
      have hmin := Int32.le_toInt (argint a0)
      change 0 < _
      omega
    refine ⟨hn, fun k hk => ?_⟩
    obtain ⟨l, hl, hsame⟩ := exists_returnsAt (h.returns k hk)
    obtain rfl := after_inj hk.le hl.le hsame
    refine ⟨fun j hj => (hl.before j hj).2, ?_⟩
    have hdone := hl.done
    rw [(hcount k).check_iff hn] at hdone
    exact not_lt.mp hdone
  · rintro ⟨hn, hdue⟩
    have hreturns : ∀ k, FirstDue (argint a0) naps c k →
        sysSleep a0 naps c = some (0, c.entered.after naps k) := by
      intro k hk
      obtain ⟨hkill, helapsed⟩ := hdue k hk
      refine ReturnsAt.sleepLoop_eq ⟨hk.le, ?_, fun j hj => ⟨?_, hkill j hj⟩⟩
      · rw [(hcount k).check_iff hn]
        exact not_lt.mpr helapsed
      have hfirst := hk.first j hj
      have hmax := Int32.toInt_lt (argint a0)
      rw [(hcount j).check_iff hn]
      omega
    exact ⟨hreturns, fun hle => ⟨0, hreturns 0 (firstDue_zero naps c hle)⟩⟩

/-- `sleep(-1)` goes to sleep. -/
theorem sysSleep_negative : argint 0xffffffffffffffff = -1 ∧
      sysSleep 0xffffffffffffffff [] ⟨0, false, 0, 0⟩ = none ∧
      ¬Sleeps 0xffffffffffffffff [] ⟨0, false, 0, 0⟩ := by
  have hasleep : sysSleep 0xffffffffffffffff [] ⟨0, false, 0, 0⟩ = none := by decide
  refine ⟨by decide, hasleep, fun h => ?_⟩
  obtain ⟨r, hr⟩ := h.awake (by decide)
  rw [hasleep] at hr
  cases hr

end Clock

end Xv6.Kernel
