import Mathlib
/-!
# Merging lists

A merge takes its elements from the heads of several lists.  It is recorded with the
list each element comes from.
-/

namespace Xv6.Lib

open List

variable {ι α : Type} [DecidableEq ι]

def pick (p : ι) (order : List (ι × α)) : List α :=
  order.filterMap fun x => if x.1 = p then some x.2 else none

/-- `order` merges what is gone from `parts`; `rest` is still there. -/
def Merged (order : List (ι × α)) (parts rest : ι → List α) : Prop :=
  ∀ p, pick p order ++ rest p = parts p

section

variable {order : List (ι × α)} {parts rest : ι → List α} {p q : ι} {a : α} {l : List α}

theorem pick_cons (p : ι) (x : ι × α) (tail : List (ι × α)) :
    pick p (x :: tail) = if x.1 = p then x.2 :: pick p tail else pick p tail := by
  unfold pick
  by_cases hx : x.1 = p
  · simp [hx]
  · simp [hx]

theorem pick_append (p : ι) (l m : List (ι × α)) : pick p (l ++ m) = pick p l ++ pick p m :=
  filterMap_append

namespace Merged

theorem nil (parts : ι → List α) : Merged [] parts parts := fun _ => rfl

section

variable (h : Merged order parts rest)
include h

theorem congr {rest' : ι → List α} (hr : ∀ p, rest' p = rest p) : Merged order parts rest' := by
  intro p
  rw [hr p]
  exact h p

/-- Take the head of list `p`. -/
theorem take {rest' : ι → List α} (hp : rest p = a :: rest' p)
    (hother : ∀ q, q ≠ p → rest' q = rest q) : Merged (order ++ [(p, a)]) parts rest' := by
  intro q
  rcases eq_or_ne q p with rfl | hq
  · rw [pick_append, pick_cons, if_pos rfl, append_assoc]
    change _ ++ (a :: rest' q) = _
    rw [← hp]
    exact h q
  · rw [pick_append, pick_cons, if_neg (Ne.symm hq), hother q hq]
    change pick q order ++ [] ++ rest q = _
    rw [append_nil]
    exact h q

theorem mem (ha : a ∈ rest p) : a ∈ parts p := by
  rw [← h p]
  exact mem_append_right _ ha

end

/-- Nothing is lost: any size adds up. -/
theorem sum [Fintype ι] (h : Merged order parts rest) (f : α → Nat) :
    (order.map fun x => f x.2).sum + ∑ p, ((rest p).map f).sum = ∑ p, ((parts p).map f).sum := by
  have hpick : ∀ order : List (ι × α),
      ∑ p, ((pick p order).map f).sum = (order.map fun x => f x.2).sum := by
    intro order
    induction order with
    | nil => exact Finset.sum_eq_zero fun _ _ => rfl
    | cons x tail ih =>
      have hcons : ∀ p, ((pick p (x :: tail)).map f).sum =
          (if x.1 = p then f x.2 else 0) + ((pick p tail).map f).sum := by
        intro p
        rw [pick_cons]
        split
        · rw [map_cons, sum_cons]
        · rw [Nat.zero_add]
      rw [Finset.sum_congr rfl fun p _ => hcons p, Finset.sum_add_distrib, ih,
        Finset.sum_ite_eq Finset.univ x.1 fun _ => f x.2, if_pos (Finset.mem_univ _),
        map_cons, sum_cons]
  rw [← hpick, ← Finset.sum_add_distrib]
  refine Finset.sum_congr rfl fun p _ => ?_
  rw [← sum_append, ← map_append, h p]

end Merged

end

end Xv6.Lib
