import Mathlib.Data.List.Nodup
/-!
# Linked nodes and circular lists

A path from `a` to `b` is the list of the nodes that are left on the way: the first
is `a`, and the link of the last is `b`.  A circular list is a path from a node to
itself; it can be entered at each of its nodes.
-/

namespace Xv6.Lib

open List

variable {α : Type} {next next' : α → α} {a b c x : α} {l l1 l2 : List α} {stop : α → Bool}

def Path (next : α → α) (a : α) : List α → α → Prop
  | [], b => a = b
  | x :: l, b => a = x ∧ Path next (next a) l b

namespace Path

theorem append_iff : Path next a (l1 ++ l2) b ↔ ∃ c, Path next a l1 c ∧ Path next c l2 b := by
  induction l1 generalizing a with
  | nil =>
    constructor
    · exact fun h => ⟨a, rfl, h⟩
    · rintro ⟨c, rfl, h⟩
      exact h
  | cons x l1 ih =>
    constructor
    · rintro ⟨hx, h⟩
      obtain ⟨c, h1, h2⟩ := ih.mp h
      exact ⟨c, ⟨hx, h1⟩, h2⟩
    · rintro ⟨c, ⟨hx, h1⟩, h2⟩
      exact ⟨hx, ih.mpr ⟨c, h1, h2⟩⟩

theorem split (h : Path next a (l1 ++ x :: l2) b) : Path next a l1 x ∧ Path next (next x) l2 b := by
  obtain ⟨c, h1, hx, h2⟩ := append_iff.mp h
  subst hx
  exact ⟨h1, h2⟩

theorem join (h1 : Path next a l1 x) (h2 : Path next (next x) l2 b) :
    Path next a (l1 ++ x :: l2) b :=
  append_iff.mpr ⟨x, h1, rfl, h2⟩

theorem congr (h : Path next a l b) (hl : ∀ x ∈ l, next' x = next x) : Path next' a l b := by
  induction l generalizing a with
  | nil => exact h
  | cons x l ih =>
    obtain ⟨rfl, htail⟩ := h
    refine ⟨rfl, ?_⟩
    rw [hl a mem_cons_self]
    exact ih htail fun y hy => hl y (mem_cons_of_mem a hy)

theorem headD_eq (h : Path next a l b) : l.headD b = a := by
  cases l with
  | nil => exact h.symm
  | cons x l => exact h.1.symm

theorem next_eq (h : Path next a (l1 ++ x :: l2) b) : next x = l2.headD b :=
  h.split.2.headD_eq.symm

theorem rotate (h : Path next a (l1 ++ x :: l2) a) : Path next x (x :: l2 ++ l1) x := by
  obtain ⟨h1, h2⟩ := h.split
  exact append_iff.mpr ⟨a, ⟨rfl, h2⟩, h1⟩

end Path

/-- Follow the links until a node passes the test. -/
def walk (next : α → α) (stop : α → Bool) : Nat → α → Option α
  | 0, _ => none
  | fuel + 1, a => if stop a = true then some a else walk next stop fuel (next a)

theorem walk_mono {fuel fuel' : Nat} (h : walk next stop fuel a = some x)
    (hle : fuel ≤ fuel') : walk next stop fuel' a = some x := by
  induction fuel generalizing a fuel' with
  | zero => cases h
  | succ fuel ih =>
    obtain ⟨k, rfl⟩ : ∃ k, fuel' = k + 1 := ⟨fuel' - 1, by omega⟩
    rw [walk] at h ⊢
    split at h
    · rename_i hstop
      rw [if_pos hstop]
      exact h
    · rename_i hstop
      rw [if_neg hstop]
      exact ih h (Nat.le_of_succ_le_succ hle)

/-- A walk along a path ends at the first node that passes the test. -/
theorem walk_path {fuel : Nat} (h : Path next a l1 x)
    (hl : ∀ y ∈ l1, stop y = false) (hx : stop x = true) (hfuel : l1.length < fuel) :
    walk next stop fuel a = some x := by
  induction l1 generalizing a fuel with
  | nil =>
    obtain rfl : a = x := h
    cases fuel with
    | zero => exact absurd hfuel (Nat.not_lt_zero _)
    | succ fuel => exact if_pos hx
  | cons y l ih =>
    obtain ⟨rfl, htail⟩ := h
    cases fuel with
    | zero => exact absurd hfuel (Nat.not_lt_zero _)
    | succ fuel =>
      have hstop := hl a mem_cons_self
      rw [walk, hstop, if_neg Bool.false_ne_true]
      exact ih htail (fun z hz => hl z (mem_cons_of_mem a hz)) (Nat.lt_of_succ_lt_succ hfuel)

/-- In a circular list, a walk finds the only node that passes the test, wherever
it starts. -/
theorem walk_cycle {fuel : Nat} {p : α} (h : Path next a l a) (hnd : l.Nodup)
    (hp : p ∈ l) (hx : x ∈ l) (hstop : ∀ y ∈ l, stop y = true ↔ y = x) (hfuel : l.length < fuel) :
    walk next stop fuel p = some x := by
  obtain ⟨l1, l2, rfl⟩ := append_of_mem hp
  have hperm : (p :: l2 ++ l1).Perm (l1 ++ p :: l2) := perm_append_comm
  have hx' : x ∈ p :: l2 ++ l1 := hperm.mem_iff.mpr hx
  have hpath := h.rotate
  have hlen := hperm.length_eq
  have hnd' := hperm.nodup_iff.mpr hnd
  have hstop' : ∀ y ∈ p :: l2 ++ l1, stop y = true ↔ y = x :=
    fun y hy => hstop y (hperm.mem_iff.mp hy)
  generalize p :: l2 ++ l1 = m at hx' hpath hlen hnd' hstop'
  obtain ⟨m1, m2, rfl⟩ := append_of_mem hx'
  refine walk_path hpath.split.1 (fun y hy => ?_) ((hstop x hx).mpr rfl) ?_
  · refine Bool.eq_false_iff.mpr fun hy' => ?_
    obtain rfl := (hstop' y (mem_append_left _ hy)).mp hy'
    exact (nodup_append.mp hnd').2.2 y hy y mem_cons_self rfl
  · rw [length_append] at hlen
    omega

end Xv6.Lib
