import Mathlib.Logic.Function.Basic

set_option autoImplicit false

/-!
# Variables kept in several places

A relation says which places keep which variable, a function what each place holds, and another
one what each variable is meant to hold. The three are coherent when every place that keeps a
variable holds the variable's value. A write goes to one place, so it keeps them coherent only
where the variable is in one place or the write changes nothing (`Coherent.write_iff`).
-/

namespace Quirrel.Copies

variable {X P V : Type}

/-- Every place that keeps a variable holds its value. -/
def Coherent (keeps : X → P → Prop) (held : P → V) (value : X → V) : Prop :=
  ∀ x p, keeps x p → held p = value x

/-- No place keeps two variables. -/
def Separate (keeps : X → P → Prop) : Prop :=
  ∀ x y p, keeps x p → keeps y p → x = y

/-- The variable is in one place at most. -/
def Whole (keeps : X → P → Prop) (x : X) : Prop :=
  ∀ p q, keeps x p → keeps x q → p = q

variable {keeps keeps' : X → P → Prop} {held held' : P → V} {value value' : X → V}

/-- Variables may move: each place then holds what a place of the same variable held. -/
theorem Coherent.move (h : Coherent keeps held value)
    (hmove : ∀ x p, keeps' x p → ∃ q, keeps x q ∧ held' p = held q) :
    Coherent keeps' held' value := by
  intro x p hp
  obtain ⟨q, hq, heq⟩ := hmove x p hp
  exact heq.trans (h x q hq)

variable [DecidableEq X] [DecidableEq P]

theorem Coherent.write_iff {x : X} {p : P} {v : V} (hsep : Separate keeps)
    (h : Coherent keeps held value) (hp : keeps x p) :
    Coherent keeps (Function.update held p v) (Function.update value x v) ↔
      Whole keeps x ∨ held p = v := by
  constructor
  · intro hw
    by_cases hv : held p = v
    · exact .inr hv
    · left
      -- A second place still holds the old value after the write.
      have hone : ∀ q, keeps x q → q = p := by
        intro q hq
        by_contra hne
        have hnew := hw x q hq
        rw [Function.update_of_ne hne, Function.update_self] at hnew
        exact hv ((h x p hp).trans ((h x q hq).symm.trans hnew))
      intro q q' hq hq'
      exact (hone q hq).trans (hone q' hq').symm
  · intro hc y q hq
    by_cases hy : y = x
    · subst hy
      rw [Function.update_self]
      by_cases hqp : q = p
      · rw [hqp, Function.update_self]
      · rw [Function.update_of_ne hqp]
        rcases hc with hwhole | hv
        · exact absurd (hwhole q p hq hp) hqp
        · exact (h y q hq).trans ((h y p hp).symm.trans hv)
    · have hqp : q ≠ p := by
        rintro rfl
        exact hy (hsep y x q hq hp)
      rw [Function.update_of_ne hqp, Function.update_of_ne hy]
      exact h y q hq

/-- A new variable in a place that kept none. -/
theorem Coherent.write_new {x : X} {p : P} {v : V} (h : Coherent keeps held value)
    (hx : ∀ q, keeps' x q → q = p) (hp : ∀ y, y ≠ x → ¬ keeps' y p)
    (hold : ∀ y q, y ≠ x → keeps' y q → keeps y q) :
    Coherent keeps' (Function.update held p v) (Function.update value x v) := by
  intro y q hq
  by_cases hy : y = x
  · subst hy
    rw [hx q hq, Function.update_self, Function.update_self]
  · have hqp : q ≠ p := by
      rintro rfl
      exact hp y hy hq
    rw [Function.update_of_ne hqp, Function.update_of_ne hy]
    exact h y q (hold y q hy hq)

end Quirrel.Copies
