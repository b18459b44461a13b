import Mathlib.Logic.Function.Basic
import Mathlib.Tactic.Basic

/-!
# Two partial maps that undo each other

`Mates f g` says that `a` goes to `b` under `f` exactly when `b` goes back to `a` under `g`, as two objects that
each keep a pointer to the other. The pointers of a pair are set and cleared together.
-/

set_option autoImplicit false

namespace Quirrel.Lib

universe u v

variable {α : Type u} {β : Type v} {f : α → Option β} {g : β → Option α} {a : α} {b : β}

/-- Two partial maps that are inverse to each other. -/
def Mates (f : α → Option β) (g : β → Option α) : Prop := ∀ a b, f a = some b ↔ g b = some a

namespace Mates

variable [DecidableEq α] [DecidableEq β]

/-- A pair is taken apart. -/
theorem unlink (h : Mates f g) (hab : f a = some b) :
    Mates (Function.update f a none) (Function.update g b none) := by
  intro c d
  by_cases hc : c = a
  · subst hc
    rw [Function.update_self]
    by_cases hd : d = b
    · subst hd
      simp
    · -- `c` had no other mate
      rw [Function.update_of_ne hd, ← h c d, hab]
      simp [Ne.symm hd]
  · rw [Function.update_of_ne hc]
    by_cases hd : d = b
    · subst hd
      have hg : g d = some a := (h a d).mp hab
      rw [Function.update_self, h c d, hg]
      simp [Ne.symm hc]
    · rw [Function.update_of_ne hd]
      exact h c d

/-- Two elements without mates become mates. -/
theorem link (h : Mates f g) (ha : f a = none) (hb : g b = none) :
    Mates (Function.update f a (some b)) (Function.update g b (some a)) := by
  intro c d
  by_cases hc : c = a <;> by_cases hd : d = b
  · subst hc hd
    simp
  · subst hc
    have hne : g d ≠ some c := fun hd' => by rw [(h c d).mpr hd'] at ha; cases ha
    simp [hd, hne, Ne.symm hd]
  · subst hd
    have hne : f c ≠ some d := fun hc' => by rw [(h c d).mp hc'] at hb; cases hb
    simp [hc, hne, Ne.symm hc]
  · rw [Function.update_of_ne hc, Function.update_of_ne hd]
    exact h c d

end Mates

end Quirrel.Lib
