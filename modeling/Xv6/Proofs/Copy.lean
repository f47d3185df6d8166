import Xv6.Kernel.Vm
/-!
# What `copyin` and `copyout` copy

Both work page by page; their effect is that of copying byte by byte up to the
first address that is not mapped.
-/

namespace Xv6.Kernel

open Xv6.Lib Function

variable {mem : Mem} {a n m j : Nat} {f : Nat → UInt8} {page : Bytes PGSIZE}

namespace Mem

variable {o : Nat}

def load : Mem → Nat → Option UInt8
  | .user m, a => (walkaddr m a).map fun page => page.get (a % PGSIZE)
  | .kernel m, a => some (m a)

def byte (mem : Mem) (a : Nat) : UInt8 := (mem.load a).getD 0

/-- How many of the `n` addresses from `a` on can be read before the first that
cannot. -/
def readable (mem : Mem) : Nat → Nat → Nat
  | _, 0 => 0
  | a, n + 1 => if (mem.load a).isSome then readable mem (a + 1) n + 1 else 0

theorem load_user (m : UserMem) (a : Nat) :
    (Mem.user m).load a = (walkaddr m a).map fun page => page.get (a % PGSIZE) := rfl

theorem readable_succ (a n : Nat) : mem.readable a (n + 1) =
    if (mem.load a).isSome then mem.readable (a + 1) n + 1 else 0 := rfl

theorem readable_le (a n : Nat) : mem.readable a n ≤ n := by
  induction n generalizing a with
  | zero => exact Nat.le_refl 0
  | succ n ih =>
    rw [readable_succ]
    split
    · exact Nat.succ_le_succ (ih (a + 1))
    · exact Nat.zero_le _

theorem readable_none (h : mem.load a = none) : mem.readable a n = 0 := by
  cases n with
  | zero => rfl
  | succ n =>
    rw [readable_succ, h]
    rfl

theorem readable_add (h : ∀ j, j < n → (mem.load (a + j)).isSome) (m : Nat) :
    mem.readable a (n + m) = n + mem.readable (a + n) m := by
  induction n generalizing a with
  | zero => rw [Nat.zero_add, Nat.zero_add, Nat.add_zero]
  | succ n ih =>
    have h0 : (mem.load a).isSome := h 0 (Nat.succ_pos n)
    rw [show n + 1 + m = n + m + 1 by omega]
    rw [readable_succ, if_pos h0, ih]
    · rw [show a + 1 + n = a + (n + 1) by omega]
      omega
    intro j hj
    rw [show a + 1 + j = a + (j + 1) by omega]
    exact h (j + 1) (by omega)

theorem readable_eq_iff : mem.readable a n = n ↔ ∀ j, j < n → (mem.load (a + j)).isSome := by
  constructor
  · intro h
    induction n generalizing a with
    | zero =>
      intro j hj
      omega
    | succ n ih =>
      rw [readable_succ] at h
      split at h
      · rename_i h0
        intro j hj
        cases j with
        | zero => exact h0
        | succ j =>
          rw [show a + (j + 1) = a + 1 + j by omega]
          exact ih (by omega) j (by omega)
      · omega
  · intro h
    have hadd := readable_add h 0
    rw [Nat.add_zero] at hadd
    exact hadd

theorem readable_kernel (m : Nat → UInt8) (a n : Nat) : (Mem.kernel m).readable a n = n :=
  readable_eq_iff.mpr fun _ _ => rfl

theorem readable_sub (h : mem.readable a n = n) (hm : o + m ≤ n) : mem.readable (a + o) m = m := by
  rw [readable_eq_iff] at h ⊢
  intro j hj
  rw [Nat.add_assoc]
  exact h (o + j) (by omega)

end Mem

variable {N : Nat}

theorem splice_splice {b : Bytes N} {o : Nat} {g : Nat → UInt8}
    (hg : ∀ j, g j = f (n + j)) : (b.splice o n f).splice (o + n) m g = b.splice o (n + m) f := by
  funext j
  unfold Bytes.splice
  by_cases h2 : o + n ≤ j.val ∧ j.val < o + n + m
  · rw [if_pos h2, if_pos (by omega), hg]
    congr 1
    omega
  rw [if_neg h2]
  by_cases h1 : o ≤ j.val ∧ j.val < o + n
  · rw [if_pos h1, if_pos (by omega)]
  · rw [if_neg h1, if_neg (by omega)]

theorem splice_congr {b : Bytes N} {o : Nat} {g : Nat → UInt8}
    (h : ∀ j, j < n → f j = g j) : b.splice o n f = b.splice o n g := by
  funext j
  unfold Bytes.splice
  by_cases hj : o ≤ j.val ∧ j.val < o + n
  · rw [if_pos hj, if_pos hj]
    exact h _ (by omega)
  · rw [if_neg hj, if_neg hj]

theorem load_in_page {m : UserMem} (h : walkaddr m a = some page) (hj : j < PGSIZE - a % PGSIZE) :
    (Mem.user m).load (a + j) = some (page.get (a % PGSIZE + j)) := by
  have hpg : PGSIZE = 4096 := rfl
  have hva : MAXVA = 67108864 * 4096 := rfl
  have hlt : a < MAXVA := by
    by_contra hge
    unfold walkaddr at h
    rw [if_pos (by omega)] at h
    exact absurd h (by simp)
  rw [hpg] at hj
  have hdiv : (a + j) / PGSIZE = a / PGSIZE := by
    rw [hpg]
    omega
  have hmod : (a + j) % PGSIZE = a % PGSIZE + j := by
    rw [hpg]
    omega
  have hlt' : a + j < MAXVA := by omega
  unfold walkaddr at h
  rw [if_neg (by omega)] at h
  rw [Mem.load_user]
  unfold walkaddr
  rw [if_neg (by omega), hdiv, h, hmod]
  rfl

theorem copyinLoop_eq (m : UserMem) (fuel : Nat) (b : Bytes N) (dst src len : Nat)
    (h : len ≤ fuel) : copyinLoop m fuel b dst src len =
      (b.splice dst ((Mem.user m).readable src len) fun j => (Mem.user m).byte (src + j),
        decide ((Mem.user m).readable src len = len)) := by
  induction fuel generalizing b dst src len with
  | zero =>
    have h0 : len = 0 := by omega
    subst h0
    unfold copyinLoop
    rw [show (Mem.user m).readable src 0 = 0 from rfl, Bytes.splice_zero]
  | succ fuel ih =>
    unfold copyinLoop
    by_cases h0 : len = 0
    · subst h0
      rw [if_pos rfl, show (Mem.user m).readable src 0 = 0 from rfl, Bytes.splice_zero]
      rfl
    rw [if_neg h0]
    cases hw : walkaddr m src with
    | none =>
      have hload : (Mem.user m).load src = none := by
        rw [Mem.load_user, hw]
        rfl
      simp only
      rw [Mem.readable_none hload, Bytes.splice_zero, decide_eq_false (Ne.symm h0)]
    | some page =>
      have hpos : 0 < PGSIZE - src % PGSIZE :=
        Nat.sub_pos_of_lt (Nat.mod_lt _ (by decide))
      have hn : 0 < min (PGSIZE - src % PGSIZE) len := by omega
      have hle : min (PGSIZE - src % PGSIZE) len ≤ len := Nat.min_le_right _ _
      have hsome : ∀ j, j < min (PGSIZE - src % PGSIZE) len →
          (Mem.user m).load (src + j) = some (page.get (src % PGSIZE + j)) :=
        fun j hj => load_in_page hw (by omega)
      have hrun : (Mem.user m).readable src len = min (PGSIZE - src % PGSIZE) len +
          (Mem.user m).readable (src + min (PGSIZE - src % PGSIZE) len)
            (len - min (PGSIZE - src % PGSIZE) len) := by
        rw [← Mem.readable_add fun j hj => by rw [hsome j hj]; rfl]
        congr 1
        omega
      simp only
      rw [ih _ _ _ _ (by omega), hrun]
      generalize min (PGSIZE - src % PGSIZE) len = n at *
      have hpage : b.splice dst n (fun j => page.get (src % PGSIZE + j)) =
          b.splice dst n fun j => (Mem.user m).byte (src + j) := by
        apply splice_congr
        intro j hj
        unfold Mem.byte
        rw [hsome j hj]
        rfl
      rw [hpage, splice_splice fun j => by rw [Nat.add_assoc]]
      congr 1
      simp only [decide_eq_decide]
      omega

/-- `either_copyin` copies the readable bytes, and reports whether that was all
of them. -/
theorem eitherCopyin_eq (mem : Mem) (b : Bytes N) (dst src len : Nat) :
    eitherCopyin mem b dst src len =
      (b.splice dst (mem.readable src len) fun j => mem.byte (src + j),
        decide (mem.readable src len = len)) := by
  cases mem with
  | user m => exact copyinLoop_eq m len b dst src len (Nat.le_refl len)
  | kernel m =>
    unfold eitherCopyin
    rw [Mem.readable_kernel, decide_eq_true rfl]
    rfl

/-! ## `copyout` -/

namespace Mem

theorem readable_congr {mem' : Mem} (h : ∀ a, (mem'.load a).isSome = (mem.load a).isSome)
    (a n : Nat) : mem'.readable a n = mem.readable a n := by
  induction n generalizing a with
  | zero => rfl
  | succ n ih => rw [readable_succ, readable_succ, h, ih]

/-- `mem'` is `mem` with the `n` bytes from `a` on replaced by those of `f`. -/
def Patched (mem mem' : Mem) (a n : Nat) (f : Nat → UInt8) : Prop :=
  ∀ x, mem'.load x = if a ≤ x ∧ x < a + n then some (f (x - a)) else mem.load x

namespace Patched

variable {mem' mem'' : Mem} {g : Nat → UInt8}

theorem zero (mem : Mem) (a : Nat) (f : Nat → UInt8) : Patched mem mem a 0 f := by
  intro x
  rw [if_neg (by omega)]

theorem append (h : Patched mem mem' a n f) (h' : Patched mem' mem'' (a + n) m g)
    (hg : ∀ j, j < m → g j = f (n + j)) : Patched mem mem'' a (n + m) f := by
  intro x
  rw [h' x]
  by_cases h2 : a + n ≤ x ∧ x < a + n + m
  · rw [if_pos h2, if_pos (by omega), hg _ (by omega)]
    congr 2
    omega
  rw [if_neg h2, h x]
  by_cases h1 : a ≤ x ∧ x < a + n
  · rw [if_pos h1, if_pos (by omega)]
  · rw [if_neg h1, if_neg (by omega)]

theorem isSome (h : Patched mem mem' a n f) (hn : mem.readable a n = n) (x : Nat) :
    (mem'.load x).isSome = (mem.load x).isSome := by
  rw [h x]
  split
  · rename_i hx
    have hr := readable_eq_iff.mp hn (x - a) (by omega)
    rw [show a + (x - a) = x by omega] at hr
    rw [hr]
    rfl
  · rfl

theorem congr (h : Patched mem mem' a n f) (hg : ∀ j, j < n → g j = f j) :
    Patched mem mem' a n g := by
  intro x
  rw [h x]
  split
  · rw [hg _ (by omega)]
  · rfl

end Patched

end Mem

theorem patched_page {m : UserMem}
    (h : walkaddr m a = some page) (hn : n ≤ PGSIZE - a % PGSIZE) : Mem.Patched (.user m)
      (.user (update m (a / PGSIZE) (some (page.splice (a % PGSIZE) n f)))) a n f := by
  have hpg : PGSIZE = 4096 := rfl
  have hva : MAXVA = 67108864 * 4096 := rfl
  have hlt : a < MAXVA := by
    by_contra hge
    unfold walkaddr at h
    rw [if_pos (by omega)] at h
    exact absurd h (by simp)
  unfold walkaddr at h
  rw [if_neg (by omega)] at h
  rw [hpg] at hn
  intro x
  rw [Mem.load_user, Mem.load_user]
  unfold walkaddr
  by_cases hx : MAXVA ≤ x
  · rw [if_pos hx, if_neg (by omega), if_pos hx]
  rw [if_neg hx, if_neg hx]
  by_cases hpage : x / PGSIZE = a / PGSIZE
  · have hmod : x % PGSIZE < PGSIZE := Nat.mod_lt _ (by decide)
    have hin : a % PGSIZE ≤ x % PGSIZE ∧ x % PGSIZE < a % PGSIZE + n ↔ a ≤ x ∧ x < a + n := by
      rw [hpg] at *
      omega
    have hsub : x % PGSIZE - a % PGSIZE = x - a := by
      rw [hpg] at *
      omega
    rw [hpage, update_self, h, Option.map_some, Option.map_some, Bytes.get_splice hmod, hsub]
    by_cases hx' : a ≤ x ∧ x < a + n
    · rw [if_pos (hin.mpr hx'), if_pos hx']
    · rw [if_neg fun hc => hx' (hin.mp hc), if_neg hx']
  · rw [update_of_ne hpage, if_neg]
    rw [hpg] at *
    omega

theorem copyoutLoop_spec (src : Nat → UInt8) (fuel : Nat) (m : UserMem) (dst done len : Nat)
    (h : len ≤ fuel) :
    (copyoutLoop src fuel m dst done len).2 = decide ((Mem.user m).readable dst len = len) ∧
      Mem.Patched (.user m) (.user (copyoutLoop src fuel m dst done len).1) dst
        ((Mem.user m).readable dst len) fun j => src (done + j) := by
  induction fuel generalizing m dst done len with
  | zero =>
    have h0 : len = 0 := by omega
    subst h0
    exact ⟨rfl, Mem.Patched.zero _ _ _⟩
  | succ fuel ih =>
    unfold copyoutLoop
    by_cases h0 : len = 0
    · subst h0
      rw [if_pos rfl]
      exact ⟨rfl, Mem.Patched.zero _ _ _⟩
    rw [if_neg h0]
    cases hw : walkaddr m dst with
    | none =>
      have hload : (Mem.user m).load dst = none := by
        rw [Mem.load_user, hw]
        rfl
      simp only
      rw [Mem.readable_none hload, decide_eq_false (Ne.symm h0)]
      exact ⟨rfl, Mem.Patched.zero _ _ _⟩
    | some page =>
      have hpos : 0 < PGSIZE - dst % PGSIZE :=
        Nat.sub_pos_of_lt (Nat.mod_lt _ (by decide))
      have hn : 0 < min (PGSIZE - dst % PGSIZE) len := by omega
      have hle : min (PGSIZE - dst % PGSIZE) len ≤ len := Nat.min_le_right _ _
      have hpage : min (PGSIZE - dst % PGSIZE) len ≤ PGSIZE - dst % PGSIZE :=
        Nat.min_le_left _ _
      simp only
      generalize min (PGSIZE - dst % PGSIZE) len = n at *
      have hall : ∀ j, j < n → ((Mem.user m).load (dst + j)).isSome := by
        intro j hj
        rw [load_in_page hw (by omega)]
        rfl
      have hpatch := patched_page (f := fun j => src (done + j)) hw hpage
      -- the pages ahead are mapped as before
      have hahead := Mem.readable_congr
        (hpatch.isSome (Mem.readable_eq_iff.mpr hall)) (dst + n) (len - n)
      have hrun : (Mem.user m).readable dst len =
          n + (Mem.user m).readable (dst + n) (len - n) := by
        rw [← Mem.readable_add hall]
        congr 1
        omega
      obtain ⟨hflag, hrest⟩ := ih (update m (dst / PGSIZE)
        (some (page.splice (dst % PGSIZE) n fun j => src (done + j)))) (dst + n) (done + n)
        (len - n) (by omega)
      rw [hahead] at hflag hrest
      rw [hrun]
      refine ⟨hflag.trans ?_, hpatch.append hrest ?_⟩
      · simp only [decide_eq_decide]
        omega
      · intro j _
        rw [Nat.add_assoc]

/-- `either_copyout` stores up to the first address that is not mapped, and
reports whether it got to the end. -/
theorem eitherCopyout_spec (mem : Mem) (dst : Nat) (src : Nat → UInt8) (len : Nat) :
    (eitherCopyout mem dst src len).2 = decide (mem.readable dst len = len) ∧
      mem.Patched (eitherCopyout mem dst src len).1 dst (mem.readable dst len) src := by
  cases mem with
  | user m =>
    obtain ⟨hflag, hpatch⟩ := copyoutLoop_spec src len m dst 0 len (Nat.le_refl len)
    exact ⟨hflag, hpatch.congr fun j _ => by rw [Nat.zero_add]⟩
  | kernel m =>
    unfold eitherCopyout
    rw [Mem.readable_kernel]
    refine ⟨(decide_eq_true rfl).symm, ?_⟩
    intro x
    simp only [Mem.load]
    by_cases hx : dst ≤ x ∧ x < dst + len
    · rw [if_pos hx, if_pos hx]
    · rw [if_neg hx, if_neg hx]

end Xv6.Kernel
