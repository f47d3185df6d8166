import Mathlib.Computability.Language
/-!
# Sequences of repeated classes

The patterns of a small matcher: each item is a class of symbols, to be matched once or
any number of times.  A pattern may have to match up to the end of the text.
-/

namespace Xv6.Lib

open Computability

variable {α : Type}

inductive Item (α : Type) where
  | once (p : α → Bool)
  | many (p : α → Bool)

def symbols (p : α → Bool) : Language α := {w | ∃ a, p a = true ∧ w = [a]}

namespace Item

def language : Item α → Language α
  | once p => symbols p
  | many p => (symbols p)∗

/-- The concatenation of the languages of the items. -/
def languages : List (Item α) → Language α
  | [] => 1
  | i :: items => i.language * languages items

def Here (items : List (Item α)) (toEnd : Bool) (text : List α) : Prop :=
  ∃ w rest, text = w ++ rest ∧ w ∈ languages items ∧ (toEnd = true → rest = [])

variable {items : List (Item α)} {toEnd : Bool} {text : List α} {p : α → Bool} {a : α}

theorem here_nil : Here [] toEnd text ↔ (toEnd = true → text = []) := by
  constructor
  · rintro ⟨w, rest, rfl, hw, hend⟩ he
    rw [(Language.mem_one w).mp hw, hend he]
    rfl
  · intro h
    exact ⟨[], text, rfl, Language.nil_mem_one, h⟩

theorem mem_once_mul {L : Language α} {w : List α} :
    w ∈ symbols p * L ↔ ∃ a v, w = a :: v ∧ p a = true ∧ v ∈ L := by
  rw [Language.mem_mul]
  constructor
  · rintro ⟨_, ⟨a, ha, rfl⟩, v, hv, rfl⟩
    exact ⟨a, v, rfl, ha, hv⟩
  · rintro ⟨a, v, rfl, ha, hv⟩
    exact ⟨[a], ⟨a, ha, rfl⟩, v, hv, rfl⟩

/-- A repeated class stands for nothing, or for one of its symbols and itself again. -/
theorem languages_many :
    languages (many p :: items) = languages items + symbols p * languages (many p :: items) := by
  change (symbols p)∗ * languages items = _ + _ * ((symbols p)∗ * languages items)
  conv_lhs => rw [← Language.one_add_self_mul_kstar_eq_kstar]
  rw [add_mul, one_mul, mul_assoc]

theorem here_once : Here (once p :: items) toEnd text ↔
    ∃ a rest, text = a :: rest ∧ p a = true ∧ Here items toEnd rest := by
  constructor
  · rintro ⟨w, rest, rfl, hw, hend⟩
    obtain ⟨a, v, rfl, ha, hv⟩ := mem_once_mul.mp hw
    exact ⟨a, v ++ rest, rfl, ha, v, rest, rfl, hv, hend⟩
  · rintro ⟨a, _, rfl, ha, v, rest, rfl, hv, hend⟩
    exact ⟨a :: v, rest, rfl, mem_once_mul.mpr ⟨a, v, rfl, ha, hv⟩, hend⟩

theorem here_many : Here (many p :: items) toEnd text ↔ Here items toEnd text ∨
    ∃ a rest, text = a :: rest ∧ p a = true ∧ Here (many p :: items) toEnd rest := by
  constructor
  · rintro ⟨w, rest, rfl, hw, hend⟩
    rw [languages_many, Language.mem_add] at hw
    rcases hw with hw | hw
    · exact .inl ⟨w, rest, rfl, hw, hend⟩
    · obtain ⟨a, v, rfl, ha, hv⟩ := mem_once_mul.mp hw
      exact .inr ⟨a, v ++ rest, rfl, ha, v, rest, rfl, hv, hend⟩
  rintro (⟨w, rest, rfl, hw, hend⟩ | ⟨a, _, rfl, ha, v, rest, rfl, hv, hend⟩)
  · refine ⟨w, rest, rfl, ?_, hend⟩
    rw [languages_many, Language.mem_add]
    exact .inl hw
  · refine ⟨a :: v, rest, rfl, ?_, hend⟩
    rw [languages_many, Language.mem_add]
    exact .inr (mem_once_mul.mpr ⟨a, v, rfl, ha, hv⟩)

end Item

end Xv6.Lib
