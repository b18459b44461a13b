import Mathlib.Tactic.Common

set_option autoImplicit false

/-!
# What can be observed along paths

A view of a store gives each value a label and, for each step, the value that the step
leads to. Two values are alike when every path from them reads the same label. A store
in which some references have been exchanged for alike ones is observed as before
(`observe_eq_of_alike`).
-/

namespace Quirrel.Lib

universe u v w

/-- The labels and the steps of a store. -/
structure View (V : Type u) (S : Type v) (O : Type w) where
  label : V → O
  child : V → S → Option V

namespace View

variable {V : Type u} {S : Type v} {O : Type w}

/-- The label at the end of a path; a path that cannot be followed reads nothing. -/
def observe (W : View V S O) : List S → V → Option O
  | [], a => some (W.label a)
  | s :: path, a => (W.child a s).bind (W.observe path)

/-- Every path from the two values reads the same. -/
def Alike (W : View V S O) (a b : V) : Prop :=
  ∀ path, W.observe path a = W.observe path b

theorem Alike.refl (W : View V S O) (a : V) : W.Alike a a := fun _ => rfl

/-- The steps from two values lead nowhere, or to alike values. -/
def AlikeSteps (W : View V S O) : Option V → Option V → Prop
  | none, none => True
  | some a, some b => W.Alike a b
  | _, _ => False

theorem AlikeSteps.refl (W : View V S O) (a : Option V) : W.AlikeSteps a a := by
  cases a with
  | none => trivial
  | some a => exact Alike.refl W a

theorem AlikeSteps.bind_eq {W : View V S O} {a b : Option V} (h : W.AlikeSteps a b)
    (path : List S) : a.bind (W.observe path) = b.bind (W.observe path) := by
  cases a with
  | none =>
    cases b with
    | none => rfl
    | some b => exact h.elim
  | some a =>
    cases b with
    | none => exact h.elim
    | some b => exact h path

/-- Values with one label and alike steps are alike. -/
theorem alike_of_steps {W : View V S O} {a b : V} (hlabel : W.label a = W.label b)
    (hsteps : ∀ s, W.AlikeSteps (W.child a s) (W.child b s)) : W.Alike a b := by
  intro path
  cases path with
  | nil => exact congrArg some hlabel
  | cons s path => exact (hsteps s).bind_eq path

/-- Exchanging references for alike ones changes no observation. -/
theorem observe_eq_of_alike {W W' : View V S O} (hlabel : ∀ a, W'.label a = W.label a)
    (hsteps : ∀ a s, W.AlikeSteps (W'.child a s) (W.child a s)) (path : List S) :
    ∀ a, W'.observe path a = W.observe path a := by
  -- Along the path: the rest is read in the new store as in the old one, and there from
  -- an alike value.
  induction path with
  | nil => exact fun a => congrArg some (hlabel a)
  | cons s path ih =>
    intro a
    have hrest : W'.observe path = W.observe path := funext ih
    show (W'.child a s).bind (W'.observe path) = (W.child a s).bind (W.observe path)
    rw [hrest]
    exact (hsteps a s).bind_eq path

end View

end Quirrel.Lib
