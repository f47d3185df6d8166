import Mathlib.Data.List.Basic
import Mathlib.Logic.Function.Basic
/-!
# Copying cell by cell

A loop copies the cells of an array one after the other.  When no cell is read
after it was overwritten, the result is that of copying all of them at once.
-/

namespace Xv6.Lib

open Function

variable {A B I : Type}

/-- Copy `src i` to `dst i`, for the indices of a list in their order. -/
def copyCells [DecidableEq A] (dst src : I → A) : List I → (A → B) → A → B
  | [], m => m
  | i :: is, m => copyCells dst src is (update m (dst i) (m (src i)))

theorem copyCells_map [DecidableEq A] {J : Type} (dst src : I → A) (f : J → I) (is : List J)
    (m : A → B) : copyCells dst src (is.map f) m = copyCells (dst ∘ f) (src ∘ f) is m := by
  induction is generalizing m with
  | nil => rfl
  | cons i is ih => exact ih _

/-- `m'` is `m` with the cells `dst i` replaced by what the cells `src i` were. -/
structure Moved (P : I → Prop) (dst src : I → A) (m m' : A → B) : Prop where
  moved : ∀ i, P i → m' (dst i) = m (src i)
  kept : ∀ a, (∀ i, P i → a ≠ dst i) → m' a = m a

/-- No cell is written twice, and none is read after it was written. -/
def ReadsFirst (dst src : I → A) (is : List I) : Prop :=
  is.Pairwise fun i j => dst i ≠ src j ∧ dst i ≠ dst j

theorem copyCells_moved [DecidableEq A] {dst src : I → A} {is : List I} (h : ReadsFirst dst src is)
    (m : A → B) : Moved (· ∈ is) dst src m (copyCells dst src is m) := by
  induction is generalizing m with
  | nil => exact ⟨fun i hi => absurd hi List.not_mem_nil, fun _ _ => rfl⟩
  | cons i is ih =>
    obtain ⟨hi, his⟩ := List.pairwise_cons.mp h
    have hrest := ih his (update m (dst i) (m (src i)))
    constructor
    · intro j hj
      rw [copyCells]
      rcases List.mem_cons.mp hj with rfl | hj
      · rw [hrest.kept (dst j) fun k hk => (hi k hk).2, update_self]
      · rw [hrest.moved j hj, update_of_ne (hi j hj).1.symm]
    · intro a ha
      rw [copyCells, hrest.kept a fun j hj => ha j (List.mem_cons_of_mem i hj),
        update_of_ne (ha i List.mem_cons_self)]

/-- What was moved is determined. -/
theorem Moved.unique {P : I → Prop} {dst src : I → A} {m m1 m2 : A → B}
    (h1 : Moved P dst src m m1) (h2 : Moved P dst src m m2) : m1 = m2 := by
  funext a
  by_cases ha : ∃ i, P i ∧ a = dst i
  · obtain ⟨i, hi, rfl⟩ := ha
    rw [h1.moved i hi, h2.moved i hi]
  · have hout : ∀ i, P i → a ≠ dst i := fun i hi heq => ha ⟨i, hi, heq⟩
    rw [h1.kept a hout, h2.kept a hout]

end Xv6.Lib
