import Mathlib.Tactic.Basic

/-!
# Loops

A loop as the iteration of a step that goes on with a state or ends with a result, for a number of
steps, and the rule for its invariants.
-/

set_option autoImplicit false

namespace Quirrel.Lib

variable {σ ρ : Type}

/-- What a step of a loop does. -/
inductive Step (σ ρ : Type) where
  | next (s : σ)
  | done (r : ρ)

namespace Step

/-- A state that the loop goes on with satisfies `Inv`, a result satisfies `Post`. -/
def Satisfies (Inv : σ → Prop) (Post : ρ → Prop) : Step σ ρ → Prop
  | next s => Inv s
  | done r => Post r

/-- At most `n` steps from the state on. -/
def iterate (step : σ → Step σ ρ) : Nat → σ → Step σ ρ
  | 0, s => next s
  | n + 1, s =>
    match step s with
    | next s' => iterate step n s'
    | done r => done r

theorem iterate_one (step : σ → Step σ ρ) (s : σ) : iterate step 1 s = step s := by
  rw [iterate]
  cases step s with
  | next s' => rfl
  | done r => rfl

theorem iterate_satisfies {step : σ → Step σ ρ} {Inv : σ → Prop} {Post : ρ → Prop}
    (hstep : ∀ s, Inv s → (step s).Satisfies Inv Post) (n : Nat) {s : σ} (h : Inv s) :
    (iterate step n s).Satisfies Inv Post := by
  induction n generalizing s with
  | zero => exact h
  | succ n ih =>
    have hone := hstep s h
    rw [iterate]
    cases hs : step s with
    | next s' =>
      rw [hs] at hone
      exact ih hone
    | done r =>
      rw [hs] at hone
      exact hone

end Step

end Quirrel.Lib
