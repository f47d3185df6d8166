import Mathlib
/-!
# Lines

The lines of a list end with a separator, which is not part of them; what comes after
the last separator is no line.
-/

namespace Xv6.Lib

open List

variable {α : Type} [DecidableEq α] {sep : α} {l xs ys : List α}

def lines (sep : α) (xs : List α) : List (List α) := (xs.splitOn sep).dropLast

def lastPart (sep : α) (xs : List α) : List α := (xs.splitOn sep).getLastD []

section

variable (h : sep ∉ l)
include h

theorem splitOn_of_not_mem : l.splitOn sep = [l] := by
  unfold List.splitOn
  rw [splitOnP_eq_singleton]
  intro x hx
  simpa using fun heq : x = sep => h (heq ▸ hx)

theorem splitOn_append_sep (xs : List α) : (l ++ sep :: xs).splitOn sep = l :: xs.splitOn sep := by
  have hl := splitOn_of_not_mem h
  unfold List.splitOn at hl ⊢
  rw [splitOnP_append_cons _ _ (by simp), hl]
  rfl

theorem lines_of_not_mem : lines sep l = [] := by
  rw [lines, splitOn_of_not_mem h]
  rfl

theorem lastPart_of_not_mem : lastPart sep l = l := by
  rw [lastPart, splitOn_of_not_mem h]
  rfl

theorem lines_append_sep (xs : List α) : lines sep (l ++ sep :: xs) = l :: lines sep xs := by
  have hne : xs.splitOn sep ≠ [] := splitOnP_ne_nil _ _
  rw [lines, splitOn_append_sep h, dropLast_cons_of_ne_nil hne]
  rfl

theorem lastPart_append_sep (xs : List α) : lastPart sep (l ++ sep :: xs) = lastPart sep xs := by
  obtain ⟨y, ys, hys⟩ := exists_cons_of_ne_nil (splitOnP_ne_nil (· == sep) xs)
  rw [lastPart, lastPart, splitOn_append_sep h]
  unfold List.splitOn
  rw [hys]
  rfl

end

/-- A list is without separators, or a line and a shorter list. -/
theorem lines_induction (sep : α) {motive : List α → Prop} (h0 : ∀ l, sep ∉ l → motive l)
    (hstep : ∀ l xs, sep ∉ l → motive xs → motive (l ++ sep :: xs)) (xs : List α) : motive xs := by
  induction hn : xs.length using Nat.strongRecOn generalizing xs with
  | _ n ih =>
    by_cases hmem : sep ∈ xs
    · obtain ⟨l, rest, rfl, hl⟩ := eq_append_cons_of_mem hmem
      refine hstep l rest hl (ih rest.length ?_ rest rfl)
      rw [← hn, length_append, length_cons]
      omega
    · exact h0 xs hmem

theorem not_mem_lastPart (sep : α) (xs : List α) : sep ∉ lastPart sep xs := by
  induction xs using lines_induction sep with
  | h0 l hl => rwa [lastPart_of_not_mem hl]
  | hstep l xs hl ih => rwa [lastPart_append_sep hl]

theorem lines_append (sep : α) (xs ys : List α) :
    lines sep (xs ++ ys) = lines sep xs ++ lines sep (lastPart sep xs ++ ys) ∧
      lastPart sep (xs ++ ys) = lastPart sep (lastPart sep xs ++ ys) := by
  induction xs using lines_induction sep with
  | h0 l hl =>
    rw [lines_of_not_mem hl, lastPart_of_not_mem hl]
    exact ⟨rfl, rfl⟩
  | hstep l xs hl ih =>
    rw [append_assoc, cons_append, lines_append_sep hl, lines_append_sep hl,
      lastPart_append_sep hl, lastPart_append_sep hl, ih.1]
    exact ⟨rfl, ih.2⟩

theorem length_lines (xs : List α) : ∀ l ∈ lines sep xs, l.length < xs.length := by
  induction xs using lines_induction sep with
  | h0 l hl => simp [lines_of_not_mem hl]
  | hstep l xs hl ih =>
    intro k hk
    rw [lines_append_sep hl, mem_cons] at hk
    rw [length_append, length_cons]
    rcases hk with rfl | hk
    · omega
    · have := ih k hk
      omega

theorem lastPart_suffix (sep : α) (xs : List α) : lastPart sep xs <:+ xs := by
  induction xs using lines_induction sep with
  | h0 l hl => rw [lastPart_of_not_mem hl]
  | hstep l xs hl ih =>
    rw [lastPart_append_sep hl]
    exact ih.trans ((suffix_cons sep xs).trans (suffix_append l _))

/-- If there is more to come, what follows the last line is part of a line, or of what
follows the last line in the end. -/
theorem lastPart_append (sep : α) (xs : List α) (hne : ys ≠ []) :
    (∃ l ∈ lines sep (xs ++ ys), (lastPart sep xs).length ≤ l.length) ∨
      (lastPart sep xs).length < (lastPart sep (xs ++ ys)).length := by
  have hxs := not_mem_lastPart sep xs
  obtain ⟨hlines, hlast⟩ := lines_append sep xs ys
  by_cases hmem : sep ∈ ys
  · obtain ⟨l, rest, rfl, hl⟩ := eq_append_cons_of_mem hmem
    have hline : sep ∉ lastPart sep xs ++ l := by
      rw [mem_append, not_or]
      exact ⟨hxs, hl⟩
    refine .inl ⟨lastPart sep xs ++ l, ?_, ?_⟩
    · rw [hlines, ← append_assoc, lines_append_sep hline]
      exact mem_append_right _ mem_cons_self
    · rw [length_append]
      exact Nat.le_add_right _ _
  · right
    have hall : sep ∉ lastPart sep xs ++ ys := by
      rw [mem_append, not_or]
      exact ⟨hxs, hmem⟩
    rw [hlast, lastPart_of_not_mem hall, length_append]
    exact Nat.lt_add_of_pos_right (length_pos_iff.mpr hne)

end Xv6.Lib
