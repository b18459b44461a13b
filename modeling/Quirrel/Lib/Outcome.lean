import Mathlib.Tactic.Basic

/-!
# Computations that may stop

A computation that ends in a value or in an error, with a postcondition for either (`Meets`), and
the comparison of two such computations (`Follows`): where the second ends well, the first ends well
and alike. An error for which `E` holds is one with which a computation may end.
-/

set_option autoImplicit false

namespace Quirrel.Lib

variable {ε α β γ δ : Type}

/-! ## Postconditions -/

/-- The value satisfies `Q`, or the error satisfies `E`. -/
def Meets (r : Except ε α) (E : ε → Prop) (Q : α → Prop) : Prop :=
  match r with
  | .ok a => Q a
  | .error e => E e

theorem Meets.mono {r : Except ε α} {E : ε → Prop} {P Q : α → Prop} (h : Meets r E P)
    (hPQ : ∀ a, P a → Q a) : Meets r E Q := by
  cases r with
  | ok a => exact hPQ a h
  | error e => exact h

/-! ## Comparison -/

/-- The computation ends in a value or in an error with which it may end. -/
def Orderly (E : ε → Prop) (r : Except ε α) : Prop := Meets r E fun _ => True

/-- If `s` ends orderly, then so does `r`; and if `r` ends in a value, then `s` ends in a related
one. -/
def Follows (E : ε → Prop) (R : α → β → Prop) (r : Except ε α) (s : Except ε β) : Prop :=
  Orderly E s → Meets r E fun a => ∃ b, s = .ok b ∧ R a b

variable {E : ε → Prop} {R : α → β → Prop}

theorem Follows.ok {a : α} {b : β} (h : R a b) : Follows E R (.ok a) (.ok b) :=
  fun _ => ⟨b, rfl, h⟩

theorem Follows.error {e : ε} (h : E e) (s : Except ε β) : Follows E R (.error e) s := fun _ => h

theorem Follows.of_disorderly {r : Except ε α} {e : ε} (h : ¬ E e) :
    Follows E R r (.error e) := fun hs => absurd hs h

theorem Follows.bind {r : Except ε α} {s : Except ε β} {k : α → Except ε γ} {l : β → Except ε δ}
    {R' : γ → δ → Prop} (h : Follows E R r s) (hk : ∀ a b, R a b → Follows E R' (k a) (l b)) :
    Follows E R' (r >>= k) (s >>= l) := by
  intro hs
  cases s with
  | ok b =>
    have hr := h trivial
    cases r with
    | ok a =>
      obtain ⟨b', hb, hab⟩ := hr
      cases hb
      exact hk a b hab hs
    | error e => exact hr
  | error e =>
    have hr := h hs
    cases r with
    | ok a =>
      obtain ⟨b, hb, -⟩ := hr
      cases hb
    | error e' => exact hr

/-- The same computation. -/
theorem Follows.refl (r : Except ε α) : Follows E Eq r r := by
  intro hr
  cases r with
  | ok a => exact ⟨a, rfl, rfl⟩
  | error e => exact hr

/-- What the first one makes of its value in the end. -/
theorem Follows.bind_ok {r : Except ε α} {s : Except ε β} {k : α → Except ε γ} {R' : γ → β → Prop}
    (h : Follows E R r s) (hk : ∀ a b, R a b → ∃ c, k a = .ok c ∧ R' c b) :
    Follows E R' (r >>= k) s := by
  intro hs
  have hr := h hs
  cases r with
  | ok a =>
    obtain ⟨b, hb, hab⟩ := hr
    obtain ⟨c, hc, hcb⟩ := hk a b hab
    have heq : (Except.ok a >>= k) = .ok c := hc
    rw [heq]
    exact ⟨b, hb, hcb⟩
  | error e => exact hr

/-- A computation that is another one with its values renamed. -/
theorem Follows.of_map {r : Except ε α} {s : Except ε β} {g : α → β} (h : s = r.map g) :
    Follows E (fun a b => b = g a) r s := by
  subst h
  intro hs
  cases r with
  | ok a => exact ⟨g a, rfl, rfl⟩
  | error e => exact hs

theorem Follows.orderly {r : Except ε α} {s : Except ε β} (h : Follows E R r s)
    (hs : Orderly E s) : Orderly E r := (h hs).mono fun _ _ => trivial

/-! ## Renamed values -/

theorem bind_eq_map {r : Except ε α} {s : Except ε β} {g : α → β} {k : α → Except ε γ}
    {l : β → Except ε δ} {g' : γ → δ} (h : s = r.map g) (hk : ∀ a, l (g a) = (k a).map g') :
    (s >>= l) = (r >>= k).map g' := by
  subst h
  cases r with
  | ok a => exact hk a
  | error e => rfl

end Quirrel.Lib
