import Mathlib.Data.List.Nodup
/-!
# Linked lists in memory

Nodes are addresses other than 0, and `next` reads the link of a node.
-/

namespace Xv6.Lib

def Chain (next : Nat → Nat) (head : Nat) : List Nat → Prop
  | [] => head = 0
  | a :: l => head = a ∧ a ≠ 0 ∧ Chain next (next a) l

namespace Chain

variable {next next' : Nat → Nat} {head a : Nat} {l l' : List Nat}

theorem congr (h : Chain next head l) (hn : ∀ a ∈ l, next' a = next a) : Chain next' head l := by
  induction l generalizing head with
  | nil => exact h
  | cons a l ih =>
    obtain ⟨hhead, ha, htail⟩ := h
    refine ⟨hhead, ha, ?_⟩
    rw [hn a List.mem_cons_self]
    exact ih htail fun b hb => hn b (List.mem_cons_of_mem a hb)

/-- A new first node, linked to the old one. -/
theorem push (h : Chain next head l) (ha : a ≠ 0) (hout : ∀ b ∈ l, next' b = next b)
    (hlink : next' a = head) : Chain next' a (a :: l) := by
  refine ⟨rfl, ha, ?_⟩
  rw [hlink]
  exact h.congr hout

/-- A chain determines its nodes. -/
theorem unique (h : Chain next head l) (h' : Chain next head l') : l = l' := by
  induction l generalizing head l' with
  | nil =>
    cases l' with
    | nil => rfl
    | cons b l' => exact absurd (h'.1.symm.trans h) h'.2.1
  | cons a l ih =>
    cases l' with
    | nil => exact absurd (h.1.symm.trans h') h.2.1
    | cons b l' =>
      obtain ⟨rfl, _, htail⟩ := h
      obtain ⟨rfl, _, htail'⟩ := h'
      rw [ih htail htail']

end Chain

end Xv6.Lib
