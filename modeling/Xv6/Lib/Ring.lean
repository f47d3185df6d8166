import Mathlib.Logic.Function.Basic
/-!
# Ring buffers with free-running counters

A ring of `cap` slots holds the elements number `r`, `r + 1`, .. of a sequence;
element number `n` is in slot `n % cap`.  The counters of an implementation are
usually known only modulo some `M`; as long as `cap` divides `M`, the slot of an
element can still be computed from them.
-/

namespace Xv6.Lib

open List

/-- The slots hold `items`, the first of which is element number `r`. -/
structure Ring {α : Type} (cap : Nat) (slot : Nat → α) (r : Nat) (items : List α) : Prop where
  room : items.length ≤ cap
  get : ∀ j (h : j < items.length), slot ((r + j) % cap) = items[j]

namespace Ring

variable {α : Type} {cap M r : Nat} {slot : Nat → α} {items : List α} {x : α}

theorem empty (cap : Nat) (slot : Nat → α) (r : Nat) : Ring cap slot r [] where
  room := Nat.zero_le _
  get := fun j h => absurd h (Nat.not_lt_zero j)

/-- Fewer than `cap` consecutive elements are in different slots. -/
theorem mod_ne {a b : Nat} (hab : a < b) (hcap : b < a + cap) : b % cap ≠ a % cap := by
  intro h
  have hd : cap ∣ b - a := Nat.dvd_of_mod_eq_zero (Nat.sub_mod_eq_zero_of_mod_eq h)
  have hle := Nat.le_of_dvd (by omega) hd
  omega

theorem push (h : Ring cap slot r items) (hroom : items.length < cap) {slot' : Nat → α}
    (hnew : slot' ((r + items.length) % cap) = x)
    (hold : ∀ i, i < cap → i ≠ (r + items.length) % cap → slot' i = slot i) :
    Ring cap slot' r (items ++ [x]) where
  room := by
    simp only [length_append, length_singleton]
    omega
  get := by
    intro j hj
    simp only [length_append, length_singleton] at hj
    rcases eq_or_ne j items.length with rfl | hlast
    · rw [hnew, getElem_concat_length rfl]
    have hj' : j < items.length := by omega
    rw [getElem_append_left hj', ← h.get j hj']
    apply hold
    · exact Nat.mod_lt _ (by omega)
    · exact (mod_ne (by omega) (by omega)).symm

theorem prepare (h : Ring cap slot r items) (hroom : items.length < cap) {slot' : Nat → α}
    (hold : ∀ i, i < cap → i ≠ (r + items.length) % cap → slot' i = slot i) :
    Ring cap slot' r items where
  room := h.room
  get := by
    intro j hj
    rw [← h.get j hj]
    apply hold
    · exact Nat.mod_lt _ (by omega)
    · exact (mod_ne (by omega) (by omega)).symm

theorem pop (h : Ring cap slot r (x :: items)) :
    slot (r % cap) = x ∧ Ring cap slot (r + 1) items := by
  constructor
  · exact h.get 0 (Nat.zero_lt_succ _)
  refine ⟨?_, ?_⟩
  · have := h.room
    rw [length_cons] at this
    omega
  intro j hj
  have hg := h.get (j + 1) (Nat.succ_lt_succ hj)
  rw [getElem_cons_succ] at hg
  rw [← hg]
  congr 1
  congr 1
  omega

theorem dropLast (h : Ring cap slot r (items ++ [x])) : Ring cap slot r items where
  room := by
    have hroom := h.room
    rw [length_append, length_singleton] at hroom
    omega
  get := by
    intro j hj
    have hg := h.get j (by rw [length_append]; omega)
    rwa [getElem_append_left hj] at hg

end Ring

end Xv6.Lib
