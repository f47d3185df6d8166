import Xv6.Kernel.Read
import Xv6.Proofs.Copy
/-!
# What `piperead` takes and what it delivers

A byte is taken from the pipe before it is copied out.
-/

namespace Xv6.Kernel

open Xv6.Lib

variable {k m : Nat}

namespace Pipe

variable {pi : Pipe}

def byteAt (pi : Pipe) (j : Nat) : UInt8 :=
  pi.data.get ((pi.nread + UInt32.ofNat j).toNat % PIPESIZE)

def advance (pi : Pipe) (j : Nat) : Pipe := { pi with nread := pi.nread + UInt32.ofNat j }

theorem advance_zero : pi.advance 0 = pi := by
  unfold advance
  rw [show UInt32.ofNat 0 = 0 from rfl, UInt32.add_zero]

theorem first_eq : pi.first = pi.byteAt 0 := by
  unfold first byteAt
  rw [show UInt32.ofNat 0 = 0 from rfl, UInt32.add_zero]

theorem byteAt_drop (j : Nat) : pi.drop.byteAt j = pi.byteAt (1 + j) := by
  unfold byteAt drop
  rw [UInt32.ofNat_add, ← UInt32.add_assoc]
  rfl

theorem advance_drop (j : Nat) : pi.drop.advance j = pi.advance (1 + j) := by
  unfold advance drop
  rw [UInt32.ofNat_add, ← UInt32.add_assoc]
  rfl

theorem used_eq_zero (h : pi.isEmpty = true) : pi.used = 0 := by
  have heq : pi.nread = pi.nwrite := by simpa [isEmpty] using h
  unfold used
  rw [heq, UInt32.sub_self]
  rfl

theorem used_drop_succ (h : ¬pi.isEmpty = true) : pi.used = pi.drop.used + 1 := by
  have hne : pi.nread ≠ pi.nwrite := by simpa [isEmpty] using h
  have hne' : pi.nread.toNat ≠ pi.nwrite.toNat := fun heq => hne (UInt32.toNat_inj.mp heq)
  have h1 := pi.nread.toNat_lt
  have h2 := pi.nwrite.toNat_lt
  unfold used drop
  simp only [UInt32.toNat_sub, UInt32.toNat_add]
  rw [show (1 : UInt32).toNat = 1 from rfl]
  omega

end Pipe

section

variable {mem : UserMem} {addr : Nat}

theorem copyoutByte_eq (mem : UserMem) (haddr : addr < 2 ^ 64) (ch : UInt8) :
    (copyoutByte mem addr ch).2 = ((Mem.user mem).load addr).isSome ∧
      Mem.Patched (.user mem) (.user (copyoutByte mem addr ch).1) addr
        (if ((Mem.user mem).load addr).isSome then 1 else 0) fun _ => ch := by
  unfold copyoutByte copyout
  rw [Nat.mod_eq_of_lt haddr]
  obtain ⟨hflag, hpatch⟩ := copyoutLoop_spec (fun _ => ch) 1 mem addr 0 1 (Nat.le_refl 1)
  have hone : (Mem.user mem).readable addr 1 =
      if ((Mem.user mem).load addr).isSome then 1 else 0 := rfl
  rw [hone] at hflag hpatch
  refine ⟨?_, hpatch⟩
  rw [hflag]
  cases ((Mem.user mem).load addr).isSome <;> rfl

theorem lt_of_load (h : ((Mem.user mem).load addr).isSome = true) : addr < MAXVA := by
  rw [Mem.load_user] at h
  unfold walkaddr at h
  split at h
  · cases h
  · omega

/-- The loop delivers up to the first address that is not mapped, and takes one byte more
if there is such an address. -/
theorem pipereadLoop_eq (fuel i : Nat) (pi : Pipe) (mem : UserMem) (haddr : addr + i < 2 ^ 64) :
    ∃ k, k = (Mem.user mem).readable (addr + i) (min fuel pi.used) ∧
      (pipereadLoop addr fuel i pi mem).1 = i + k ∧
      Mem.Patched (.user mem) (.user (pipereadLoop addr fuel i pi mem).2.1) (addr + i) k pi.byteAt ∧
      (pipereadLoop addr fuel i pi mem).2.2 =
        pi.advance (if k = min fuel pi.used then k else k + 1) := by
  induction fuel generalizing i pi mem with
  | zero =>
    rw [Nat.zero_min]
    exact ⟨0, rfl, rfl, Mem.Patched.zero _ _ _, Pipe.advance_zero.symm⟩
  | succ fuel ih =>
    unfold pipereadLoop
    by_cases hempty : pi.isEmpty = true
    · rw [if_pos hempty, Pipe.used_eq_zero hempty, Nat.min_zero]
      exact ⟨0, rfl, rfl, Mem.Patched.zero _ _ _, Pipe.advance_zero.symm⟩
    have hused := Pipe.used_drop_succ hempty
    have hmin : min (fuel + 1) pi.used = min fuel pi.drop.used + 1 := by omega
    obtain ⟨hflag, hpatch⟩ := copyoutByte_eq mem haddr pi.first
    rw [if_neg hempty, hmin, Mem.readable_succ]
    simp only [hflag]
    by_cases hload : ((Mem.user mem).load (addr + i)).isSome = true
    · have hva := lt_of_load hload
      have hmax : MAXVA = 2 ^ 38 := rfl
      simp only [hload, if_true] at hpatch ⊢
      obtain ⟨k, hk, hi, hrest, hpi⟩ := ih (i + 1) pi.drop
        (copyoutByte mem (addr + i) pi.first).1 (by omega)
      have hsame : ∀ x, ((Mem.user (copyoutByte mem (addr + i) pi.first).1).load x).isSome =
          ((Mem.user mem).load x).isSome := by
        refine hpatch.isSome ?_
        rw [Mem.readable_succ, if_pos hload]
        rfl
      rw [Mem.readable_congr hsame, ← Nat.add_assoc] at hk
      refine ⟨k + 1, by rw [hk], ?_, ?_, ?_⟩
      · omega
      · rw [Nat.add_comm k 1]
        refine Mem.Patched.append (hpatch.congr fun j hj => ?_) hrest fun j _ => ?_
        · rw [show j = 0 by omega, Pipe.first_eq]
        · rw [Pipe.byteAt_drop]
      rw [hpi, Pipe.advance_drop]
      congr 1
      split
      · rw [if_pos (by omega), Nat.add_comm]
      · rw [if_neg (by omega)]
        omega
    · simp only [hload, if_false, Bool.false_eq_true] at hpatch ⊢
      refine ⟨0, rfl, rfl, hpatch.congr fun j hj => absurd hj (Nat.not_lt_zero j), ?_⟩
      rw [if_neg (by omega), ← Pipe.advance_drop 0, Pipe.advance_zero]

end

structure Delivered (pi pi' : Pipe) (mem' : UserMem) (addr r : Nat) : Prop where
  nread : pi'.nread = pi.nread + UInt32.ofNat r
  stored : ∀ j, j < r → (Mem.user mem').load (addr + j) = some (pi.byteAt j)

theorem advance_eq_iff (pi : Pipe) :
    (pi.advance (if k = m then k else k + 1)).nread = pi.nread + UInt32.ofNat k ↔ k = m := by
  unfold Pipe.advance
  by_cases hk : k = m
  · simp only [hk, if_true]
  simp only [hk, if_false, iff_false]
  intro heq
  rw [UInt32.ofNat_add, ← UInt32.add_assoc, UInt32.add_eq_left] at heq
  exact absurd heq (by decide)

/-- A read that returns `r ≥ 0` takes the `r` bytes it stores and no other exactly if
every byte that it takes has an address to go to: where one has not, that byte is lost. -/
theorem piperead_delivers_iff {waited after : Option Pipe} {mem mem' : UserMem} {addr : Nat}
    {n r : Int} (haddr : addr < 2 ^ 64) (hrun : piperead waited mem addr n = ((r, mem'), after))
    (hr : 0 ≤ r) : ∃ pi pi', waited = some pi ∧ after = some pi' ∧
      (Delivered pi pi' mem' addr r.toNat ↔
        ∀ j, j < min n.toNat pi.used → ((Mem.user mem).load (addr + j)).isSome = true) := by
  cases waited with
  | none =>
    cases hrun
    omega
  | some pi =>
    cases hrun
    obtain ⟨k, hk, hret, hpatch, hpi⟩ :=
      pipereadLoop_eq n.toNat 0 pi mem (show addr + 0 < 2 ^ 64 from haddr)
    rw [Nat.add_zero] at hk hpatch
    rw [Nat.zero_add] at hret
    refine ⟨pi, _, rfl, rfl, ?_⟩
    rw [← Mem.readable_eq_iff, ← hk, ← advance_eq_iff pi, ← hpi, hret, Int.toNat_natCast]
    refine ⟨fun h => h.nread, fun h => ⟨h, fun j hj => ?_⟩⟩
    rw [hpatch (addr + j), if_pos (by omega), Nat.add_sub_cancel_left]

def onePipe : Pipe where
  data := Bytes.const 7
  nread := 0
  nwrite := 1
  readopen := true
  writeopen := true

/-- With a page at 0 the byte is delivered. -/
theorem piperead_delivers_page : ∃ mem' pi',
    piperead (some onePipe) (fun _ => some Bytes.zero) 0 1 = ((1, mem'), some pi') ∧
      Delivered onePipe pi' mem' 0 1 := by
  have hrun : piperead (some onePipe) (fun _ => some Bytes.zero) 0 1 = ((1, _), some _) := rfl
  obtain ⟨pi, pi', hpi, hpi', hiff⟩ := piperead_delivers_iff (by decide) hrun (by decide)
  cases hpi
  cases hpi'
  refine ⟨_, _, hrun, hiff.mpr fun j hj => ?_⟩
  have hj0 : j = 0 := Nat.lt_one_iff.mp (Nat.lt_of_lt_of_le hj (Nat.min_le_left _ _))
  subst hj0
  rfl

/-- With no page there the read returns 0, and the byte is gone. -/
theorem piperead_loses_byte : ∃ mem' pi',
    piperead (some onePipe) (fun _ => none) 0 1 = ((0, mem'), some pi') ∧ pi'.nread = 1 ∧
      ¬Delivered onePipe pi' mem' 0 0 :=
  ⟨_, _, rfl, rfl, fun h => absurd h.nread (by decide)⟩

end Xv6.Kernel
