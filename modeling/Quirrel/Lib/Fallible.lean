import Mathlib.Tactic.Basic

/-!
# Stateful computations that may fail

A computation that changes a state and ends in a value or in an error; the changes made before an
error stay. `Ensures` is the postcondition for both ends from a given state, with one rule for each
way to build a computation.
-/

set_option autoImplicit false

namespace Quirrel.Lib

/-- Computations with a state that survives an error. -/
abbrev Fallible (ε σ α : Type) := ExceptT ε (StateM σ) α

namespace Fallible

variable {ε σ α β : Type} {s : σ} {E E' : ε → σ → Prop} {Q Q' : α → σ → Prop}

/-- What the computation ends in from the state `s`, with the state it leaves. -/
def result (c : Fallible ε σ α) (s : σ) : Except ε α × σ := c.run.run s

/-- From `s` on, a value comes with a state for which `Q` holds, an error with one for which `E`
does. -/
def Ensures (c : Fallible ε σ α) (s : σ) (E : ε → σ → Prop) (Q : α → σ → Prop) : Prop :=
  match c.result s with
  | (.ok a, s') => Q a s'
  | (.error e, s') => E e s'

theorem Ensures.pure {a : α} (h : Q a s) : Ensures (Pure.pure a : Fallible ε σ α) s E Q := h

theorem Ensures.throw {e : ε} (h : E e s) : Ensures (MonadExcept.throw e : Fallible ε σ α) s E Q := h

theorem Ensures.get {E : ε → σ → Prop} {Q : σ → σ → Prop} (h : Q s s) :
    Ensures (MonadState.get : Fallible ε σ σ) s E Q := h

theorem Ensures.modifyGet {f : σ → α × σ} (h : Q (f s).1 (f s).2) :
    Ensures (MonadState.modifyGet f : Fallible ε σ α) s E Q := h

theorem Ensures.set {s' : σ} {Q : PUnit → σ → Prop} (h : Q ⟨⟩ s') :
    Ensures (MonadStateOf.set s' : Fallible ε σ PUnit) s E Q := h

theorem result_bind (c : Fallible ε σ α) (k : α → Fallible ε σ β) (s : σ) :
    (c >>= k).result s =
      match c.result s with
      | (.ok a, s') => (k a).result s'
      | (.error e, s') => (.error e, s') := by
  unfold result
  rw [ExceptT.run_bind, StateT.run_bind]
  rcases StateT.run (ExceptT.run c) s with ⟨r, s'⟩
  cases r with
  | ok a => rfl
  | error e => rfl

theorem Ensures.bind {c : Fallible ε σ α} {k : α → Fallible ε σ β} {Q : β → σ → Prop}
    (h : Ensures c s E fun a s' => Ensures (k a) s' E Q) : Ensures (c >>= k) s E Q := by
  unfold Ensures at h ⊢
  rw [result_bind]
  rcases hc : c.result s with ⟨r, s'⟩
  rw [hc] at h
  cases r with
  | ok a => exact h
  | error e => exact h

theorem Ensures.mono {c : Fallible ε σ α} (h : Ensures c s E Q) (hE : ∀ e s', E e s' → E' e s')
    (hQ : ∀ a s', Q a s' → Q' a s') : Ensures c s E' Q' := by
  unfold Ensures at h ⊢
  rcases hc : c.result s with ⟨r, s'⟩
  rw [hc] at h
  cases r with
  | ok a => exact hQ a s' h
  | error e => exact hE e s' h

/-- A computation that cannot end in an error has a value. -/
theorem Ensures.exists_ok {c : Fallible ε σ α} (h : Ensures c s (fun _ _ => False) Q) :
    ∃ a s', c.result s = (.ok a, s') ∧ Q a s' := by
  unfold Ensures at h
  rcases hc : c.result s with ⟨r, s'⟩
  rw [hc] at h
  cases r with
  | ok a => exact ⟨a, s', rfl, h⟩
  | error e => exact h.elim

end Fallible

end Quirrel.Lib
