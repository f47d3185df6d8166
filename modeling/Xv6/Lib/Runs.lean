import Mathlib.Data.List.Basic
/-!
# Runs of a machine

A machine is a function that says what an action does to a state, if it is
possible there.
-/

namespace Xv6.Lib

variable {σ α : Type} {step : σ → α → Option σ} {C : σ → α → Prop} {ok : σ → α → Bool}
  {s t u : σ} {acts : List α}

/-- The states reached from `s` by actions that all meet the condition `C`. -/
inductive Reaches (step : σ → α → Option σ) (C : σ → α → Prop) (s : σ) : σ → Prop where
  | refl : Reaches step C s s
  | step {t u : σ} (a : α) : Reaches step C s t → C t a → step t a = some u →
      Reaches step C s u

/-- Take a list of actions, all of which have to pass the test `ok`. -/
def exec (step : σ → α → Option σ) (ok : σ → α → Bool) (s : σ) : List α → Option σ
  | [] => some s
  | a :: rest => if ok s a = true then (step s a).bind fun t => exec step ok t rest else none

namespace Reaches

section

variable (h : Reaches step C s t)
include h

theorem invariant {I : σ → Prop} (hs : I s)
    (hstep : ∀ u v a, I u → C u a → step u a = some v → I v) : I t := by
  induction h with
  | refl => exact hs
  | step a _ hC hst ih => exact hstep _ _ a ih hC hst

theorem trans (h' : Reaches step C t u) : Reaches step C s u := by
  induction h' with
  | refl => exact h
  | step a _ hC hst ih => exact ih.step a hC hst

theorem mono {D : σ → α → Prop} (hD : ∀ u a, C u a → D u a) : Reaches step D s t := by
  induction h with
  | refl => exact .refl
  | step a _ hC hst ih => exact ih.step a (hD _ a hC) hst

theorem exec (hC : ∀ a ∈ acts, ∀ v, ok v a = true → C v a)
    (hrun : exec step ok t acts = some u) : Reaches step C s u := by
  induction acts generalizing t with
  | nil =>
    cases hrun
    exact h
  | cons a rest ih =>
    obtain ⟨hok, hrun⟩ := Option.ite_none_right_eq_some.mp hrun
    obtain ⟨v, hv, hrest⟩ := Option.bind_eq_some_iff.mp hrun
    have hstep := Reaches.step a h (hC a List.mem_cons_self t hok) hv
    exact ih hstep (fun b hb => hC b (List.mem_cons_of_mem _ hb)) hrest

end

end Reaches

/-- A machine whose steps another one can follow does nothing that the other
cannot do. -/
theorem exec_simulates {τ : Type} {step' : τ → α → Option τ} {R : σ → τ → Prop} {t : τ}
    (hstep : ∀ s t a u, R s t → step s a = some u → ∃ v, step' t a = some v ∧ R u v)
    (hR : R s t) (hrun : exec step (fun _ _ => true) s acts = some u) :
    ∃ v, exec step' (fun _ _ => true) t acts = some v ∧ R u v := by
  induction acts generalizing s t with
  | nil =>
    cases hrun
    exact ⟨t, rfl, hR⟩
  | cons a rest ih =>
    obtain ⟨_, hrun⟩ := Option.ite_none_right_eq_some.mp hrun
    obtain ⟨s', hs', hrest⟩ := Option.bind_eq_some_iff.mp hrun
    obtain ⟨t', ht', hR'⟩ := hstep s t a s' hR hs'
    obtain ⟨v, hv, hRv⟩ := ih hR' hrest
    refine ⟨v, ?_, hRv⟩
    unfold exec
    rw [if_pos rfl, ht']
    exact hv

/-- Two machines in step with each other: each can do what the other can. -/
theorem exec_rel {τ : Type} {step' : τ → α → Option τ} {R : σ → τ → Prop} {t : τ}
    (hstep : ∀ s t a, R s t → Option.Rel R (step s a) (step' t a)) (hR : R s t)
    (acts : List α) :
    Option.Rel R (exec step (fun _ _ => true) s acts) (exec step' (fun _ _ => true) t acts) := by
  induction acts generalizing s t with
  | nil => exact .some hR
  | cons a rest ih =>
    have hrel := hstep s t a hR
    unfold exec
    rw [if_pos rfl, if_pos rfl]
    generalize step s a = o, step' t a = o' at hrel ⊢
    cases hrel with
    | some h => exact ih h
    | none => exact .none

end Xv6.Lib
