import Mathlib.Algebra.BigOperators.Group.Finset.Basic
import Mathlib.Algebra.BigOperators.Group.Finset.Piecewise
import Mathlib.Algebra.Order.Group.Multiset
import Mathlib.Data.Fintype.Prod
/-!
# Shares and slots

Two ways to say who holds what.  A multiset of resources without duplicates is
the sum of the holders' shares: then the shares are disjoint.  A table of slots
refers to objects: the number of slots that refer to an object is its reference
count.
-/

namespace Xv6.Lib

open Function

/-! ## Shares -/

section Shares

variable {ι α : Type} {S : Finset ι} {f : ι → Multiset α} {i j : ι} {a : α}

theorem share_le_sum (hi : i ∈ S) : f i ≤ ∑ k ∈ S, f k := by
  classical
  rw [← Finset.add_sum_erase S f hi]
  exact Multiset.le_add_right _ _

theorem holder_unique (hnd : (∑ k ∈ S, f k).Nodup) (hi : i ∈ S) (hj : j ∈ S) (hai : a ∈ f i)
    (haj : a ∈ f j) : i = j := by
  classical
  by_contra hne
  rw [← Finset.add_sum_erase S f hi] at hnd
  have hj' : j ∈ S.erase i := Finset.mem_erase.mpr ⟨fun h => hne h.symm, hj⟩
  have hmem : a ∈ ∑ k ∈ S.erase i, f k := Multiset.mem_of_le (share_le_sum hj') haj
  exact Multiset.disjoint_left.mp (Multiset.nodup_add.mp hnd).2.2 hai hmem

theorem share_nodup (hnd : (∑ k ∈ S, f k).Nodup) (hi : i ∈ S) : (f i).Nodup :=
  Multiset.nodup_of_le (share_le_sum hi) hnd

theorem sum_update_share [DecidableEq ι] (hi : i ∈ S) (x : Multiset α) :
    ∑ k ∈ S, update f i x k + f i = ∑ k ∈ S, f k + x := by
  rw [← Finset.add_sum_erase S f hi, ← Finset.add_sum_erase S _ hi, update_self]
  have hrest : ∑ k ∈ S.erase i, update f i x k = ∑ k ∈ S.erase i, f k :=
    Finset.sum_congr rfl fun k hk => update_of_ne (Finset.ne_of_mem_erase hk) ..
  rw [hrest]
  ac_rfl

end Shares

/-! ## Slots -/

section Slots

variable {ι κ φ : Type} [DecidableEq ι] [DecidableEq κ]

def setSlot (σ : ι → κ → Option φ) (i : ι) (j : κ) (v : Option φ) : ι → κ → Option φ :=
  update σ i (update (σ i) j v)

variable {σ : ι → κ → Option φ} {i i' : ι} {j j' : κ} {f f' : φ} {v : Option φ}

theorem setSlot_self (σ : ι → κ → Option φ) (i : ι) (j : κ) (v : Option φ) :
    setSlot σ i j v i j = v := by
  unfold setSlot
  rw [update_self, update_self]

theorem setSlot_ne (h : ¬(i' = i ∧ j' = j)) : setSlot σ i j v i' j' = σ i' j' := by
  unfold setSlot
  rcases eq_or_ne i' i with rfl | hi
  · rw [update_self, update_of_ne fun hj => h ⟨rfl, hj⟩]
  · rw [update_of_ne hi]

theorem setSlot_setSlot (σ : ι → κ → Option φ) (i : ι) (j : κ) (u v : Option φ) :
    setSlot (setSlot σ i j u) i j v = setSlot σ i j v := by
  unfold setSlot
  rw [update_self, update_idem, update_idem]

theorem setSlot_eq (σ : ι → κ → Option φ) (i : ι) (j : κ) : setSlot σ i j (σ i j) = σ := by
  unfold setSlot
  rw [update_eq_self, update_eq_self]

variable [Fintype ι] [Fintype κ] [DecidableEq φ]

def slots (σ : ι → κ → Option φ) (f : φ) : Nat :=
  (Finset.univ.filter fun e : ι × κ => σ e.1 e.2 = some f).card

omit [DecidableEq ι] [DecidableEq κ] in
theorem slots_pos : 0 < slots σ f ↔ ∃ i j, σ i j = some f := by
  unfold slots
  rw [Finset.card_pos]
  constructor
  · rintro ⟨e, he⟩
    exact ⟨e.1, e.2, (Finset.mem_filter.mp he).2⟩
  · rintro ⟨i, j, h⟩
    exact ⟨(i, j), Finset.mem_filter.mpr ⟨Finset.mem_univ _, h⟩⟩

/-- Filling an empty slot adds one reference. -/
theorem slots_fill (h : σ i j = none) (f f' : φ) :
    slots (setSlot σ i j (some f)) f' = slots σ f' + if f' = f then 1 else 0 := by
  have hother : ∀ e : ι × κ, e ≠ (i, j) → setSlot σ i j (some f) e.1 e.2 = σ e.1 e.2 := by
    intro e he
    apply setSlot_ne
    rintro ⟨hi, hj⟩
    exact he (Prod.ext hi hj)
  unfold slots
  split
  · rename_i heq
    have hset : (Finset.univ.filter fun e : ι × κ => setSlot σ i j (some f) e.1 e.2 = some f') =
        insert (i, j) (Finset.univ.filter fun e : ι × κ => σ e.1 e.2 = some f') := by
      ext e
      rw [Finset.mem_insert, Finset.mem_filter, Finset.mem_filter]
      by_cases he : e = (i, j)
      · subst he
        rw [setSlot_self, heq]
        simp
      · rw [hother e he]
        simp [he]
    have hnot : (i, j) ∉ Finset.univ.filter fun e : ι × κ => σ e.1 e.2 = some f' := by
      rw [Finset.mem_filter, h]
      simp
    rw [hset, Finset.card_insert_of_notMem hnot]
  · rename_i hne
    congr 1
    ext e
    rw [Finset.mem_filter, Finset.mem_filter]
    by_cases he : e = (i, j)
    · subst he
      rw [setSlot_self, h]
      simp [Ne.symm hne]
    · rw [hother e he]

theorem slots_clear (h : σ i j = some f) (f' : φ) :
    slots σ f' = slots (setSlot σ i j none) f' + if f' = f then 1 else 0 := by
  have hfill := slots_fill (setSlot_self σ i j none) f f'
  rwa [setSlot_setSlot, ← h, setSlot_eq] at hfill

end Slots

end Xv6.Lib
