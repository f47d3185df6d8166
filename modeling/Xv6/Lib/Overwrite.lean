import Mathlib.Data.List.Basic
/-!
# Overwriting part of a list

`overwrite xs off ys` is `xs` with the elements from `off` on replaced by those of
`ys`; it is longer than `xs` where `ys` reaches past its end.
-/

namespace Xv6.Lib

open List

variable {α : Type}

def overwrite (xs : List α) (off : Nat) (ys : List α) : List α :=
  xs.take off ++ ys ++ xs.drop (off + ys.length)

section

variable {xs ys zs : List α} {off i : Nat}

theorem length_overwrite (h : off ≤ xs.length) :
    (overwrite xs off ys).length = max xs.length (off + ys.length) := by
  unfold overwrite
  simp only [length_append, length_take, length_drop]
  omega

theorem getElem?_overwrite (h : off ≤ xs.length) : (overwrite xs off ys)[i]? =
      if off ≤ i ∧ i < off + ys.length then ys[i - off]? else xs[i]? := by
  have hlen : (xs.take off).length = off := by
    rw [length_take]
    omega
  unfold overwrite
  rw [append_assoc, List.getElem?_append, hlen]
  by_cases hlo : i < off
  · rw [if_pos hlo, if_neg (by omega), List.getElem?_take_of_lt hlo]
  rw [if_neg hlo, List.getElem?_append]
  by_cases hhi : i - off < ys.length
  · rw [if_pos hhi, if_pos (by omega)]
  rw [if_neg hhi, if_neg (by omega), List.getElem?_drop]
  congr 1
  omega

@[simp] theorem overwrite_nil : overwrite xs off [] = xs := by
  unfold overwrite
  rw [append_nil, length_nil, Nat.add_zero, take_append_drop]

theorem overwrite_overwrite (h : off ≤ xs.length) :
    overwrite (overwrite xs off ys) (off + ys.length) zs = overwrite xs off (ys ++ zs) := by
  have hle : off + ys.length ≤ (overwrite xs off ys).length := by
    rw [length_overwrite h]
    exact Nat.le_max_right _ _
  apply ext_getElem?
  intro i
  rw [getElem?_overwrite hle, getElem?_overwrite h, getElem?_overwrite h, length_append,
    List.getElem?_append]
  by_cases hys : i < off + ys.length
  · rw [if_neg (by omega)]
    by_cases hlo : off ≤ i
    · rw [if_pos ⟨hlo, hys⟩, if_pos ⟨hlo, by omega⟩, if_pos (by omega)]
    · rw [if_neg (by omega), if_neg (by omega)]
  by_cases hzs : i < off + ys.length + zs.length
  · rw [if_pos ⟨by omega, hzs⟩, if_pos ⟨by omega, by omega⟩, if_neg (by omega)]
    congr 1
    omega
  · rw [if_neg (by omega), if_neg (by omega), if_neg (by omega)]

end

end Xv6.Lib
