import Mathlib.Logic.Function.Basic
/-!
# Ownership of resources

Slots of a data structure each name at most one resource.  `Allocation` says
that no resource is named twice, and that the resources marked as used are
those that some slot names together with a fixed set that no slot names.
-/

namespace Xv6.Lib

open Function

/-- `own s` is the resource slot `s` names; `used` are the resources marked as
in use; `fixed` are in use without an owner. -/
structure Allocation {σ β : Type} (own : σ → Option β) (used fixed : β → Prop) : Prop where
  inj : ∀ s t b, own s = some b → own t = some b → s = t
  used_iff : ∀ b, used b ↔ fixed b ∨ ∃ s, own s = some b
  apart : ∀ s b, own s = some b → ¬fixed b

namespace Allocation

variable {σ β : Type} {own own' : σ → Option β} {used used' fixed : β → Prop} {s : σ} {b : β}

section

variable (h : Allocation own used fixed)
include h

theorem used_of_own (hs : own s = some b) : used b :=
  (h.used_iff b).mpr (.inr ⟨s, hs⟩)

theorem used_of_fixed (hb : fixed b) : used b :=
  (h.used_iff b).mpr (.inl hb)

/-- An empty slot takes over a free resource. -/
theorem attach [DecidableEq σ] (hs : own s = none)
    (hb : ¬used b) (hused : ∀ c, used' c ↔ used c ∨ c = b) :
    Allocation (update own s (some b)) used' fixed where
  inj := by
    -- a slot other than `s` names a used resource, so never `b`
    have hne : ∀ t c, t ≠ s → own t = some c → c ≠ b := by
      rintro t c _ ht rfl
      exact hb (h.used_of_own ht)
    intro t u c ht hu
    by_cases hts : t = s
    · by_cases hus : u = s
      · rw [hts, hus]
      rw [hts, update_self] at ht
      rw [update_of_ne hus] at hu
      exact absurd (Option.some.inj ht).symm (hne u c hus hu)
    rw [update_of_ne hts] at ht
    by_cases hus : u = s
    · rw [hus, update_self] at hu
      exact absurd (Option.some.inj hu).symm (hne t c hts ht)
    · rw [update_of_ne hus] at hu
      exact h.inj t u c ht hu
  used_iff := by
    intro c
    rw [hused, h.used_iff]
    constructor
    · rintro ((hf | ⟨t, ht⟩) | rfl)
      · exact .inl hf
      · refine .inr ⟨t, ?_⟩
        have hts : t ≠ s := by
          rintro rfl
          rw [hs] at ht
          exact absurd ht (by simp)
        rw [update_of_ne hts]
        exact ht
      · exact .inr ⟨s, update_self ..⟩
    · rintro (hf | ⟨t, ht⟩)
      · exact .inl (.inl hf)
      by_cases hts : t = s
      · rw [hts, update_self] at ht
        exact .inr (Option.some.inj ht).symm
      · rw [update_of_ne hts] at ht
        exact .inl (.inr ⟨t, ht⟩)
  apart := by
    intro t c ht
    by_cases hts : t = s
    · rw [hts, update_self] at ht
      rw [← Option.some.inj ht]
      exact fun hf => hb (h.used_of_fixed hf)
    · rw [update_of_ne hts] at ht
      exact h.apart t c ht

theorem congr (hown : ∀ s, own' s = own s)
    (hused : ∀ b, used' b ↔ used b) : Allocation own' used' fixed := by
  have hfun : own' = own := funext hown
  rw [hfun]
  exact ⟨h.inj, fun b => (hused b).trans (h.used_iff b), h.apart⟩

end

end Allocation

end Xv6.Lib
