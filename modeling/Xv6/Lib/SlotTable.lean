import Mathlib.Data.List.Basic
/-!
# Maps kept in slots

A table of slots, each empty or with a key and its value.  A key goes into the first
empty slot, or into a new one behind the last; it is removed by emptying its slot.
As long as no key is in two slots, this is a map.
-/

namespace Xv6.Lib

open List

variable {κ ν : Type}

abbrev SlotTable (κ ν : Type) : Type := List (Option (κ × ν))

namespace SlotTable

/-- The value in a slot if it has key `k`. -/
def valueOf [DecidableEq κ] (k : κ) : Option (κ × ν) → Option ν
  | some (k', v) => if k' = k then some v else none
  | none => none

def find [DecidableEq κ] (t : SlotTable κ ν) (k : κ) : Option ν := t.findSome? (valueOf k)

/-- The first slot with key `k`, or the number of slots. -/
def index [DecidableEq κ] (t : SlotTable κ ν) (k : κ) : Nat :=
  t.findIdx fun x => (valueOf k x).isSome

def free (t : SlotTable κ ν) : Nat := t.findIdx Option.isNone

def put (t : SlotTable κ ν) (i : Nat) (x : Option (κ × ν)) : SlotTable κ ν :=
  if i < t.length then t.set i x else t ++ [x]

/-- No key is in two slots. -/
def Distinct (t : SlotTable κ ν) : Prop :=
  ∀ (i j : Nat) (k : κ) (v w : ν), t[i]? = some (some (k, v)) → t[j]? = some (some (k, w)) → i = j

def keyAt (t : SlotTable κ ν) (i : Nat) : Option κ := t[i]?.join.map Prod.fst

section

variable {t : SlotTable κ ν} {k k' : κ} {v : ν} {i j : Nat} {x : Option (κ × ν)}

/-- A test that can be evaluated. -/
theorem distinct_of_keys (h : ∀ i, i < t.length → ∀ j, j < t.length →
    keyAt t i = none ∨ keyAt t i ≠ keyAt t j ∨ i = j) : Distinct t := by
  intro i j k v w hi hj
  have hki : keyAt t i = some k := by
    unfold keyAt
    rw [hi]
    rfl
  have hkj : keyAt t j = some k := by
    unfold keyAt
    rw [hj]
    rfl
  have hlti := (List.getElem?_eq_some_iff.mp hi).1
  have hltj := (List.getElem?_eq_some_iff.mp hj).1
  rcases h i hlti j hltj with hnone | hne | heq
  · rw [hki] at hnone
    cases hnone
  · exact absurd (hki.trans hkj.symm) hne
  · exact heq

theorem getElem?_put (hi : i ≤ t.length) : (put t i x)[j]? = if j = i then some x else t[j]? := by
  unfold put
  split
  · rw [List.getElem?_set]
    rcases eq_or_ne j i with rfl | hj
    · rw [if_pos rfl, if_pos rfl, if_pos (by assumption)]
    · rw [if_neg (Ne.symm hj), if_neg hj]
  rw [List.getElem?_append]
  by_cases hlt : j < t.length
  · rw [if_pos hlt, if_neg (by omega)]
  rw [if_neg hlt]
  by_cases hj : j = i
  · rw [if_pos hj, show j - t.length = 0 by omega]
    rfl
  · rw [if_neg hj, List.getElem?_eq_none (by simp; omega), List.getElem?_eq_none (by omega)]

theorem free_le : free t ≤ t.length := findIdx_le_length

theorem getElem?_free : t[free t]? = none ∨ t[free t]? = some none := by
  by_cases h : free t < t.length
  · right
    have hx := findIdx_getElem (w := h)
    rw [List.getElem?_eq_getElem h]
    exact congrArg some (Option.isNone_iff_eq_none.mp hx)
  · left
    exact List.getElem?_eq_none (by omega)

theorem free_of_first (hi : t[i]? = some none) (hbelow : ∀ j, j < i → t[j]? ≠ some none) :
    free t = i := by
  have hlt := (List.getElem?_eq_some_iff.mp hi).1
  refine (findIdx_eq hlt).mpr ⟨?_, ?_⟩
  · rw [(List.getElem?_eq_some_iff.mp hi).2]
    rfl
  intro j hj
  have hjt : j < t.length := Nat.lt_trans hj hlt
  cases hx : t[j] with
  | none => exact absurd (by rw [List.getElem?_eq_getElem hjt, hx]) (hbelow j hj)
  | some y => rfl

theorem free_of_full (h : ∀ j : Nat, t[j]? ≠ some none) : free t = t.length := by
  refine findIdx_eq_length.mpr ?_
  intro x hx
  obtain ⟨j, hj⟩ := List.getElem?_of_mem hx
  cases x with
  | none => exact absurd hj (h j)
  | some y => rfl

theorem Distinct.put_none (hd : Distinct t) (hi : i ≤ t.length) : Distinct (put t i none) := by
  intro a b k' v' w' ha hb
  rw [getElem?_put hi] at ha hb
  split at ha
  · cases ha
  split at hb
  · cases hb
  · exact hd a b k' v' w' ha hb

variable [DecidableEq κ]

theorem valueOf_eq_some : valueOf k x = some v ↔ x = some (k, v) := by
  cases x with
  | none => simp [valueOf]
  | some y =>
    obtain ⟨k', w⟩ := y
    change (if k' = k then some w else none) = some v ↔ _
    split
    · rename_i hk
      subst hk
      simp
    · rename_i hk
      simp [hk]

theorem find_eq_some (hd : Distinct t) :
    find t k = some v ↔ ∃ i : Nat, t[i]? = some (some (k, v)) := by
  unfold find
  constructor
  · intro h
    obtain ⟨x, hx, hv⟩ := List.exists_of_findSome?_eq_some h
    rw [valueOf_eq_some] at hv
    subst hv
    exact List.getElem?_of_mem hx
  rintro ⟨i, hi⟩
  have hmem := mem_of_getElem? hi
  have hsome : (t.findSome? (valueOf k)).isSome := by
    rw [List.findSome?_isSome_iff]
    exact ⟨_, hmem, by rw [valueOf_eq_some.mpr rfl]; rfl⟩
  obtain ⟨w, hw⟩ := Option.isSome_iff_exists.mp hsome
  obtain ⟨y, hy, hval⟩ := List.exists_of_findSome?_eq_some hw
  rw [valueOf_eq_some] at hval
  subst hval
  obtain ⟨j, hj⟩ := List.getElem?_of_mem hy
  obtain rfl := hd j i k w v hj hi
  rw [hj] at hi
  rw [hw]
  cases hi
  rfl

theorem find_eq_none : find t k = none ↔ ∀ (i : Nat) v, t[i]? ≠ some (some (k, v)) := by
  unfold find
  rw [List.findSome?_eq_none_iff]
  constructor
  · intro h i v hi
    have hnone := h _ (mem_of_getElem? hi)
    rw [valueOf_eq_some.mpr rfl] at hnone
    cases hnone
  intro h x hx
  obtain ⟨i, hi⟩ := List.getElem?_of_mem hx
  cases hv : valueOf k x with
  | none => rfl
  | some v =>
    rw [valueOf_eq_some] at hv
    subst hv
    exact absurd hi (h i v)

theorem Distinct.put_free (hd : Distinct t) (hk : find t k = none) :
    Distinct (put t (free t) (some (k, v))) := by
  intro i j k' v' w' hi hj
  rw [getElem?_put free_le] at hi hj
  by_cases h1 : i = free t
  · by_cases h2 : j = free t
    · rw [h1, h2]
    rw [if_pos h1] at hi
    rw [if_neg h2] at hj
    cases hi
    exact absurd hj (find_eq_none.mp hk j w')
  rw [if_neg h1] at hi
  by_cases h2 : j = free t
  · rw [if_pos h2] at hj
    cases hj
    exact absurd hi (find_eq_none.mp hk i v')
  · rw [if_neg h2] at hj
    exact hd i j k' v' w' hi hj

/-- A key that is put into the table is found with its value; the others as before. -/
theorem find_put_free (hd : Distinct t) (hk : find t k = none) :
    find (put t (free t) (some (k, v))) k' = if k' = k then some v else find t k' := by
  have hd' : Distinct (put t (free t) (some (k, v))) := hd.put_free hk
  apply Option.ext
  intro w
  rw [find_eq_some hd']
  rcases eq_or_ne k' k with rfl | hkk
  · rw [if_pos rfl]
    constructor
    · rintro ⟨i, hi⟩
      rw [getElem?_put free_le] at hi
      split at hi
      · cases hi
        rfl
      · exact absurd hi (find_eq_none.mp hk i w)
    · intro hw
      cases hw
      refine ⟨free t, ?_⟩
      rw [getElem?_put free_le, if_pos rfl]
  · rw [if_neg hkk, find_eq_some hd]
    constructor
    · rintro ⟨i, hi⟩
      rw [getElem?_put free_le] at hi
      split at hi
      · cases hi
        exact absurd rfl hkk
      · exact ⟨i, hi⟩
    rintro ⟨i, hi⟩
    refine ⟨i, ?_⟩
    rw [getElem?_put free_le, if_neg, hi]
    rintro rfl
    rcases getElem?_free (t := t) with hf | hf
    · rw [hf] at hi
      cases hi
    · rw [hf] at hi
      cases hi

/-- A key whose slot is emptied is gone; the others are found as before. -/
theorem find_put_none (hd : Distinct t) (hi : t[i]? = some (some (k, v))) :
    find (put t i none) k' = if k' = k then none else find t k' := by
  have hle : i ≤ t.length := Nat.le_of_lt (List.getElem?_eq_some_iff.mp hi).1
  apply Option.ext
  intro w
  rw [find_eq_some (hd.put_none hle)]
  rcases eq_or_ne k' k with rfl | hkk
  · rw [if_pos rfl]
    constructor
    · rintro ⟨j, hj⟩
      rw [getElem?_put hle] at hj
      split at hj
      · cases hj
      · rename_i hne
        exact absurd (hd j i k' w v hj hi) hne
    · intro hw
      cases hw
  · rw [if_neg hkk, find_eq_some hd]
    constructor
    · rintro ⟨j, hj⟩
      rw [getElem?_put hle] at hj
      split at hj
      · cases hj
      · exact ⟨j, hj⟩
    rintro ⟨j, hj⟩
    refine ⟨j, ?_⟩
    rw [getElem?_put hle, if_neg, hj]
    rintro rfl
    rw [hi] at hj
    cases hj
    exact hkk rfl

/-- The first slot with the key is the one that is found. -/
theorem find_of_first (hi : t[i]? = some (some (k, v)))
    (hbelow : ∀ j, j < i → ∀ w, t[j]? ≠ some (some (k, w))) :
    find t k = some v ∧ index t k = i := by
  induction t generalizing i with
  | nil => cases hi
  | cons x t ih =>
    unfold find index
    rw [List.findSome?_cons, findIdx_cons]
    cases i with
    | zero =>
      rw [List.getElem?_cons_zero] at hi
      rw [valueOf_eq_some.mpr (Option.some.inj hi)]
      exact ⟨rfl, rfl⟩
    | succ i =>
      have hx : valueOf k x = none := by
        cases hv : valueOf k x with
        | none => rfl
        | some w =>
          rw [valueOf_eq_some] at hv
          exact absurd (by rw [List.getElem?_cons_zero, hv]) (hbelow 0 (Nat.succ_pos i) w)
      obtain ⟨hfind, hindex⟩ := ih (i := i) hi fun j hj w hw =>
        hbelow (j + 1) (Nat.succ_lt_succ hj) w hw
      rw [hx]
      refine ⟨hfind, ?_⟩
      unfold index at hindex
      rw [hindex]
      rfl

theorem getElem?_index (h : find t k = some v) : t[index t k]? = some (some (k, v)) := by
  induction t with
  | nil => cases h
  | cons x t ih =>
    unfold find at h
    unfold index
    rw [List.findSome?_cons] at h
    rw [findIdx_cons]
    cases hx : valueOf k x with
    | some w =>
      rw [hx] at h
      cases h
      rw [valueOf_eq_some] at hx
      subst hx
      rfl
    | none =>
      rw [hx] at h
      exact ih h

end

end SlotTable

end Xv6.Lib
