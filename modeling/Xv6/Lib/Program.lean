import Mathlib.Tactic.Basic
/-!
# Stateful programs that may stop

`Prog σ ε α` is a computation over a state `σ` that returns an `α` or stops
with a reason `ε`.  `Wp E f Q s` is its weakest precondition with a separate
exit channel: started in `s`, the program either returns a value and a state
satisfying `Q`, or stops with a reason that `E` allows.  The rules below are
one for each way of building a program; counted loops get an indexed
invariant.
-/

namespace Xv6.Lib

/-- A computation over `σ` that returns an `α` or stops with an `ε`. -/
def Prog (σ ε α : Type) : Type := σ → Except ε (α × σ)

namespace Prog

variable {σ τ ε α β : Type}

def ret (a : α) : Prog σ ε α := fun s => .ok (a, s)

def andThen (f : Prog σ ε α) (g : α → Prog σ ε β) : Prog σ ε β := fun s =>
  match f s with
  | .ok (a, t) => g a t
  | .error e => .error e

instance : Monad (Prog σ ε) where
  pure := ret
  bind := andThen

def get : Prog σ ε σ := fun s => .ok (s, s)

def gets (f : σ → α) : Prog σ ε α := fun s => .ok (f s, s)

def modify (f : σ → σ) : Prog σ ε Unit := fun s => .ok ((), f s)

def stop (e : ε) : Prog σ ε α := fun _ => .error e

/-- Run a program on a component of a larger state. -/
def zoom (get : σ → τ) (put : σ → τ → σ) (f : Prog τ ε α) : Prog σ ε α := fun s =>
  match f (get s) with
  | .ok (a, t) => .ok (a, put s t)
  | .error e => .error e

/-- `for (i = lo; i < lo + n; i++) body(i)`. -/
def forRange (body : Nat → Prog σ ε Unit) : Nat → Nat → Prog σ ε Unit
  | _, 0 => ret ()
  | lo, n + 1 => andThen (body lo) fun _ => forRange body (lo + 1) n

/-- A counted loop that may leave early with a value. -/
def findRange (body : Nat → Prog σ ε (Option β)) : Nat → Nat → Prog σ ε (Option β)
  | _, 0 => ret none
  | lo, n + 1 => andThen (body lo) fun r => match r with
    | some b => ret (some b)
    | none => findRange body (lo + 1) n

end Prog

/-- Weakest precondition with an exit channel `E` for the reasons a program
may stop with. -/
def Wp {σ ε α : Type} (E : ε → Prop) (f : Prog σ ε α) (Q : α → σ → Prop) (s : σ) : Prop :=
  match f s with
  | .ok (a, t) => Q a t
  | .error e => E e

namespace Wp

variable {σ τ ε α β : Type} {E : ε → Prop} {f : Prog σ ε α} {s : σ} {Q Q' : α → σ → Prop} {a : α}

theorem mono {E' : ε → Prop} (h : Wp E f Q s) (hE : ∀ e, E e → E' e) (hQ : ∀ a t, Q a t → Q' a t) :
    Wp E' f Q' s := by
  unfold Wp at h ⊢
  cases hf : f s with
  | ok r => rw [hf] at h; exact hQ _ _ h
  | error e => rw [hf] at h; exact hE _ h

/-- Weaken only the postcondition. -/
theorem post (h : Wp E f Q s) (hQ : ∀ a t, Q a t → Q' a t) : Wp E f Q' s :=
  h.mono (fun _ he => he) hQ

theorem and (h : Wp E f Q s) (h' : Wp E f Q' s) : Wp E f (fun a t => Q a t ∧ Q' a t) s := by
  unfold Wp at h h' ⊢
  cases hf : f s with
  | ok r => rw [hf] at h h'; exact ⟨h, h'⟩
  | error e => rw [hf] at h; exact h

theorem of_forall (hQ : ∀ a t, Q a t) : Wp (fun _ => True) f Q s := by
  unfold Wp
  split
  · exact hQ _ _
  · trivial

theorem remember (h : Wp E f (fun a t => f s = .ok (a, t) → Q a t) s) : Wp E f Q s := by
  unfold Wp at h ⊢
  cases hf : f s with
  | ok r => rw [hf] at h; exact h rfl
  | error e => rw [hf] at h; exact h

theorem pure_iff : Wp E (pure a : Prog σ ε α) Q s ↔ Q a s := Iff.rfl

theorem andThen_iff {g : α → Prog σ ε β} {Q : β → σ → Prop} :
    Wp E (Prog.andThen f g) Q s ↔ Wp E f (fun a t => Wp E (g a) Q t) s := by
  unfold Wp Prog.andThen
  cases f s <;> rfl

theorem bind_iff {g : α → Prog σ ε β} {Q : β → σ → Prop} :
    Wp E (f >>= g) Q s ↔ Wp E f (fun a t => Wp E (g a) Q t) s :=
  andThen_iff

theorem bind {g : α → Prog σ ε β} {Q : β → σ → Prop} (h : Wp E f (fun a t => Wp E (g a) Q t) s) :
    Wp E (f >>= g) Q s :=
  bind_iff.mpr h

theorem get_iff {Q : σ → σ → Prop} : Wp E (Prog.get : Prog σ ε σ) Q s ↔ Q s s := Iff.rfl

theorem gets_iff {f : σ → α} : Wp E (Prog.gets f : Prog σ ε α) Q s ↔ Q (f s) s := Iff.rfl

theorem modify_iff {f : σ → σ} {Q : Unit → σ → Prop} :
    Wp E (Prog.modify f : Prog σ ε Unit) Q s ↔ Q () (f s) := Iff.rfl

theorem stop_iff {e : ε} : Wp E (Prog.stop e : Prog σ ε α) Q s ↔ E e := Iff.rfl

theorem zoom_iff {get : σ → τ} {put : σ → τ → σ} {f : Prog τ ε α}
   : Wp E (Prog.zoom get put f) Q s ↔ Wp E f (fun a t => Q a (put s t)) (get s) := by
  unfold Wp Prog.zoom
  cases f (get s) <;> rfl

theorem ite_iff {c : Prop} [Decidable c] {f g : Prog σ ε α} :
    Wp E (if c then f else g) Q s ↔ (c → Wp E f Q s) ∧ (¬c → Wp E g Q s) := by
  by_cases hc : c <;> simp [hc]

theorem forRange {body : Nat → Prog σ ε Unit} {I : Nat → σ → Prop} {lo n : Nat} (hI : I lo s)
    (hbody : ∀ i t, lo ≤ i → i < lo + n → I i t → Wp E (body i) (fun _ u => I (i + 1) u) t) :
    Wp E (Prog.forRange body lo n) (fun _ t => I (lo + n) t) s := by
  induction n generalizing lo s with
  | zero => exact hI
  | succ n ih =>
    rw [Prog.forRange, andThen_iff]
    refine (hbody lo s (Nat.le_refl _) (by omega) hI).post ?_
    intro _ t ht
    have hrest := ih ht (fun i u hlo hlt hi => hbody i u (by omega) (by omega) hi)
    refine hrest.post ?_
    intro _ u hu
    rwa [show lo + (n + 1) = lo + 1 + n by omega]

/-- The invariant rule for a loop that may leave early: `I i` holds before
round `i`, and `R` holds of whatever the loop leaves with. -/
theorem findRange {body : Nat → Prog σ ε (Option β)} {I : Nat → σ → Prop}
    {R : β → σ → Prop} {lo n : Nat} (hI : I lo s) (hbody : ∀ i t, lo ≤ i → i < lo + n → I i t →
      Wp E (body i) (fun r u => match r with | some b => R b u | none => I (i + 1) u) t) :
    Wp E (Prog.findRange body lo n)
      (fun r t => match r with | some b => R b t | none => I (lo + n) t) s := by
  induction n generalizing lo s with
  | zero => exact hI
  | succ n ih =>
    rw [Prog.findRange, andThen_iff]
    refine (hbody lo s (Nat.le_refl _) (by omega) hI).post ?_
    intro r t ht
    cases r with
    | some b => exact ht
    | none =>
      have hrest := ih ht (fun i u hlo hlt hi => hbody i u (by omega) (by omega) hi)
      refine hrest.post ?_
      intro r u hu
      rwa [show lo + (n + 1) = lo + 1 + n by omega]

theorem returns (h : Wp (fun _ => False) f Q s) : ∃ a t, f s = .ok (a, t) ∧ Q a t := by
  unfold Wp at h
  cases hf : f s with
  | ok r => rw [hf] at h; exact ⟨r.1, r.2, rfl, h⟩
  | error e => rw [hf] at h; exact h.elim

theorem of_ok {s t : σ} (h : Wp E f Q s) (hf : f s = .ok (a, t)) : Q a t := by
  unfold Wp at h
  rwa [hf] at h

theorem of_error {e : ε} (h : Wp E f Q s) (hf : f s = .error e) : E e := by
  unfold Wp at h
  rwa [hf] at h

end Wp

variable {σ ε α β : Type} {f : Prog σ ε α} {s : σ}

theorem Prog.bind_ok {g : α → Prog σ ε β} {t : σ} {a : α}
    (h : f s = .ok (a, t)) : (f >>= g) s = g a t := by
  change andThen f g s = _
  unfold andThen
  rw [h]

/-- A run from a fixed state, evaluated through what `g` sees of its result. -/
theorem Prog.exists_ok {g : α × σ → β} {b : β}
    (h : (f s).toOption.map g = some b) : ∃ a t, f s = .ok (a, t) ∧ g (a, t) = b := by
  cases hf : f s with
  | ok r =>
    rw [hf] at h
    exact ⟨r.1, r.2, rfl, Option.some.inj h⟩
  | error e =>
    rw [hf] at h
    cases h

end Xv6.Lib
