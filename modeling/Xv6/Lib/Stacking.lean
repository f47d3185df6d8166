import Mathlib
/-!
# Blocks on a stack that grows down

Blocks of given sizes are pushed one below the other, each of them at a multiple
of `al`.  When they fit, they lie between the final stack pointer and the top,
and no two of them overlap.
-/

namespace Xv6.Lib

open List

def roundUp (al n : Nat) : Nat := (n + (al - 1)) / al * al

/-- How far the stack pointer moves for blocks of the sizes `ns`. -/
def room (al : Nat) (ns : List Nat) : Nat := (ns.map (roundUp al)).sum

/-- Where the blocks are, in the order in which they are pushed. -/
def starts (al : Nat) : Nat → List Nat → List Nat
  | _, [] => []
  | top, n :: ns => (top - roundUp al n) :: starts al (top - roundUp al n) ns

variable {al top n : Nat} {ns : List Nat}

theorem le_roundUp (hal : 0 < al) : n ≤ roundUp al n := by
  unfold roundUp
  have hdiv := Nat.div_add_mod' (n + (al - 1)) al
  have hmod := Nat.mod_lt (n + (al - 1)) hal
  omega

theorem dvd_roundUp (al n : Nat) : al ∣ roundUp al n := Nat.dvd_mul_left al _

@[simp] theorem room_nil : room al [] = 0 := rfl

@[simp] theorem room_cons : room al (n :: ns) = roundUp al n + room al ns := rfl

@[simp] theorem room_append (al : Nat) (ms ns : List Nat) :
    room al (ms ++ ns) = room al ms + room al ns := by
  unfold room
  rw [map_append, sum_append]

theorem dvd_room (al : Nat) (ns : List Nat) : al ∣ room al ns := by
  induction ns with
  | nil => exact Nat.dvd_zero al
  | cons n ns ih => exact Nat.dvd_add (dvd_roundUp al n) ih

@[simp] theorem length_starts (al top : Nat) (ns : List Nat) :
    (starts al top ns).length = ns.length := by
  induction ns generalizing top with
  | nil => rfl
  | cons n ns ih => rw [starts, length_cons, length_cons, ih]

theorem starts_append (al top : Nat) (ms ns : List Nat) :
    starts al top (ms ++ ns) = starts al top ms ++ starts al (top - room al ms) ns := by
  induction ms generalizing top with
  | nil => rfl
  | cons n ms ih => rw [cons_append, starts, starts, ih, cons_append, room_cons, Nat.sub_sub]

theorem starts_le (al top : Nat) (ns : List Nat) : ∀ p ∈ starts al top ns, p ≤ top := by
  induction ns generalizing top with
  | nil => exact fun p hp => absurd hp not_mem_nil
  | cons n ns ih =>
    intro p hp
    rcases mem_cons.mp hp with rfl | hp
    · exact Nat.sub_le _ _
    · exact Nat.le_trans (ih _ p hp) (Nat.sub_le _ _)

/-- Every block is between the final stack pointer and the top. -/
theorem starts_inside (hal : 0 < al) (hfit : room al ns ≤ top) :
    ∀ b ∈ (starts al top ns).zip ns, top - room al ns ≤ b.1 ∧ b.1 + b.2 ≤ top := by
  induction ns generalizing top with
  | nil => exact fun b hb => absurd hb not_mem_nil
  | cons n ns ih =>
    rw [room_cons] at hfit
    intro b hb
    rw [starts, zip_cons_cons, mem_cons] at hb
    have hn : n ≤ roundUp al n := le_roundUp hal
    rw [room_cons]
    rcases hb with rfl | hb
    · exact ⟨by simp only; omega, by simp only; omega⟩
    · obtain ⟨hlo, hhi⟩ := ih (by omega) b hb
      omega

theorem starts_below (hal : 0 < al) (hfit : room al ns ≤ top) :
    ((starts al top ns).zip ns).Pairwise fun a b => b.1 + b.2 ≤ a.1 := by
  induction ns generalizing top with
  | nil => exact List.Pairwise.nil
  | cons n ns ih =>
    rw [room_cons] at hfit
    rw [starts, zip_cons_cons, pairwise_cons]
    exact ⟨fun b hb => (starts_inside hal (by omega) b hb).2, ih (by omega)⟩

end Xv6.Lib
