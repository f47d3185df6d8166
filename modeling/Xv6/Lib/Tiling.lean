import Mathlib.Data.List.Perm.Basic
/-!
# Blocks of memory that do not overlap

A block is a start and a length.  How many blocks cover an address says both that
blocks do not overlap (never more than one) and what they make up together.
-/

namespace Xv6.Lib

abbrev Extent : Type := Nat × Nat

def Extent.Mem (e : Extent) (x : Nat) : Prop := e.1 ≤ x ∧ x < e.1 + e.2

instance (e : Extent) (x : Nat) : Decidable (e.Mem x) := inferInstanceAs (Decidable (_ ∧ _))

def cover (l : List Extent) (x : Nat) : Nat := l.countP fun e => decide (e.Mem x)

variable {l l' : List Extent} {e f : Extent} {a m n x : Nat}

theorem cover_cons (e : Extent) (l : List Extent) (x : Nat) :
    cover (e :: l) x = (if e.Mem x then 1 else 0) + cover l x := by
  unfold cover
  rw [List.countP_cons, Nat.add_comm]
  simp only [decide_eq_true_eq]

theorem cover_perm (h : l.Perm l') (x : Nat) : cover l x = cover l' x := h.countP_eq _

theorem cover_pos_iff : 0 < cover l x ↔ ∃ e ∈ l, e.Mem x := by
  unfold cover
  rw [List.countP_pos_iff]
  simp only [decide_eq_true_eq]

/-- Two blocks next to each other are as good as one. -/
theorem cover_merge (a m n : Nat) (l : List Extent) (x : Nat) :
    cover ((a, m) :: (a + m, n) :: l) x = cover ((a, m + n) :: l) x := by
  have hboth : Extent.Mem (a, m + n) x ↔ Extent.Mem (a, m) x ∨ Extent.Mem (a + m, n) x := by
    simp only [Extent.Mem]
    omega
  simp only [cover_cons]
  by_cases h1 : Extent.Mem (a, m) x
  · have h2 : ¬ Extent.Mem (a + m, n) x := by
      simp only [Extent.Mem] at h1 ⊢
      omega
    rw [if_pos h1, if_neg h2, if_pos (hboth.mpr (.inl h1)), Nat.zero_add]
  · by_cases h2 : Extent.Mem (a + m, n) x
    · rw [if_neg h1, if_pos h2, if_pos (hboth.mpr (.inr h2)), Nat.zero_add]
    · rw [if_neg h1, if_neg h2, if_neg fun h => (hboth.mp h).elim h1 h2, Nat.zero_add]

def Apart (l : List Extent) : Prop := l.Pairwise fun e f => ∀ x, ¬ (e.Mem x ∧ f.Mem x)

theorem apart_of_cover (h : ∀ x, cover l x ≤ 1) : Apart l := by
  induction l with
  | nil => exact List.Pairwise.nil
  | cons e l ih =>
    refine List.Pairwise.cons (fun f hf x hx => ?_) (ih fun x => ?_)
    · have hpos : 0 < cover l x := cover_pos_iff.mpr ⟨f, hf, hx.2⟩
      have hle := h x
      rw [cover_cons, if_pos hx.1] at hle
      omega
    · have hle := h x
      rw [cover_cons] at hle
      omega

/-- A block that starts before another one ends before it. -/
theorem end_le_of_cover (h : ∀ x, cover (e :: l) x ≤ 1) (hf : f ∈ l) (hn : 0 < f.2)
    (hlt : e.1 ≤ f.1) : e.1 + e.2 ≤ f.1 := by
  by_contra hin
  have hapart := List.rel_of_pairwise_cons (apart_of_cover h) hf
  exact hapart f.1 ⟨⟨hlt, by omega⟩, Nat.le_refl _, by omega⟩

end Xv6.Lib
