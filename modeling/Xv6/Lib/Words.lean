import Mathlib.Data.List.Basic
/-!
# Words between separators

The words of a list are its longest parts without a separator, the empty ones left out.
-/

namespace Xv6.Lib

open List

variable {α : Type} [DecidableEq α] {sep a : α} {s t : List α}

def words (sep : α) (s : List α) : List (List α) := (s.splitOn sep).filter (· ≠ [])

@[simp] theorem words_nil : words sep [] = [] := by
  unfold words List.splitOn
  rw [splitOnP_nil]
  rfl

/-- A separator ends a word. -/
theorem words_append_sep : words sep (s ++ sep :: t) = words sep s ++ words sep t := by
  unfold words List.splitOn
  rw [splitOnP_append_cons _ _ (by simp), filter_append]

theorem words_sep_cons : words sep (sep :: t) = words sep t :=
  (words_append_sep (s := [])).trans (by rw [words_nil, nil_append])

theorem words_dropWhile : words sep (s.dropWhile (· == sep)) = words sep s := by
  induction s with
  | nil => rfl
  | cons a s ih =>
    rcases eq_or_ne a sep with rfl | ha
    · rw [dropWhile_cons_of_pos (by simp), ih, words_sep_cons]
    · rw [dropWhile_cons_of_neg (by simpa using ha)]

theorem words_single (hs : sep ∉ s) (hne : s ≠ []) : words sep s = [s] := by
  unfold words List.splitOn
  rw [splitOnP_eq_singleton]
  · simp [hne]
  · intro x hx
    simpa using fun heq : x = sep => hs (heq ▸ hx)

theorem words_cons (ha : a ≠ sep) : words sep (a :: s) =
    (a :: s).takeWhile (· != sep) :: words sep ((a :: s).dropWhile (· != sep)) := by
  have hne : (a :: s).takeWhile (· != sep) ≠ [] := by
    rw [takeWhile_cons_of_pos (by simpa using ha)]
    exact cons_ne_nil _ _
  have hsep : sep ∉ (a :: s).takeWhile (· != sep) := by
    intro hx
    have hx' := all_eq_true.mp (all_takeWhile (p := (· != sep)) (l := a :: s)) _ hx
    simp at hx'
  have happ := takeWhile_append_dropWhile (p := (· != sep)) (l := a :: s)
  cases hd : (a :: s).dropWhile (· != sep) with
  | nil =>
    rw [hd, append_nil] at happ
    rw [words_nil, ← words_single hsep hne, happ]
  | cons b t =>
    have hb : b = sep := by
      have := List.head?_dropWhile_not (· != sep) (a :: s)
      rw [hd] at this
      simpa using this
    rw [hd, hb] at happ
    rw [hb, words_sep_cons]
    conv_lhs => rw [← happ, words_append_sep, words_single hsep hne]
    rfl

theorem words_ne_nil (ha : a ≠ sep) : words sep (a :: s) ≠ [] := by
  rw [words_cons ha]
  exact cons_ne_nil _ _

end Xv6.Lib
