import Mathlib.Data.List.Basic
import Mathlib.Tactic.Basic

/-!
# Runs and nested calls

Runs of a partial step function, or of a step relation, in which every step meets a condition, with
the rule for invariants.
The states may carry a stack of what the calls under way were started from; a step that keeps to the
stack discipline pushes one entry, or ends calls and restores what the outermost of them was started
from. A run from the start of a call to its end restores what the call was started from.
-/

set_option autoImplicit false

namespace Quirrel.Lib

variable {σ ε α : Type} {step : σ → ε → Option σ} {ok : σ → ε → Prop}

/-- The steps of `es` lead from the first state to the second, and all of them meet `ok`. -/
inductive Run (step : σ → ε → Option σ) (ok : σ → ε → Prop) : σ → List ε → σ → Prop
  | nil (s : σ) : Run step ok s [] s
  | cons {s s' t : σ} {e : ε} {es : List ε} (hok : ok s e) (hstep : step s e = some s')
      (hrun : Run step ok s' es t) : Run step ok s (e :: es) t

namespace Run

theorem invariant {Inv : σ → Prop}
    (hinv : ∀ s e s', Inv s → ok s e → step s e = some s' → Inv s') {s t : σ} {es : List ε}
    (h : Run step ok s es t) (hs : Inv s) : Inv t := by
  induction h with
  | nil => exact hs
  | cons hok hstep _ ih => exact ih (hinv _ _ _ hs hok hstep)

theorem append {s t u : σ} {es fs : List ε} (h : Run step ok s es t) (h' : Run step ok t fs u) :
    Run step ok s (es ++ fs) u := by
  induction h with
  | nil => exact h'
  | cons hok hstep _ ih => exact .cons hok hstep (ih h')

end Run

/-- The steps of `es`, one after the other. -/
def execute (step : σ → ε → Option σ) : σ → List ε → Option σ
  | s, [] => some s
  | s, e :: es =>
    match step s e with
    | some s' => execute step s' es
    | none => none

/-- One step more behind a run. -/
theorem execute_snoc {s t : σ} (es : List ε) (e : ε) (h : execute step s es = some t) :
    execute step s (es ++ [e]) = step t e := by
  induction es generalizing s with
  | nil =>
    obtain rfl : s = t := Option.some.inj h
    rw [List.nil_append, execute]
    split
    · next hstep => rw [hstep]; rfl
    · next hstep => exact hstep.symm
  | cons e' es ih =>
    rw [execute] at h
    rw [List.cons_append, execute]
    cases hstep : step s e' with
    | none => rw [hstep] at h; cases h
    | some s' => rw [hstep] at h; exact ih h

/-! ## Runs of a relation -/

section Relation

universe u v

variable {σ : Type u} {ε : Type v}

/-- The events of `es` lead from the first state to the second, and all of them meet `P` in the state
before them. -/
inductive Steps (Step : σ → ε → σ → Prop) (P : σ → ε → Prop) : σ → List ε → σ → Prop
  | nil (s : σ) : Steps Step P s [] s
  | cons {s s' t : σ} {e : ε} {es : List ε} (he : P s e) (hstep : Step s e s')
      (hrun : Steps Step P s' es t) : Steps Step P s (e :: es) t

namespace Steps

variable {Step : σ → ε → σ → Prop} {P : σ → ε → Prop}

theorem invariant {I : σ → Prop} (hinv : ∀ s e s', I s → P s e → Step s e s' → I s')
    {s t : σ} {es : List ε} (h : Steps Step P s es t) (hs : I s) : I t := by
  induction h with
  | nil => exact hs
  | cons he hstep _ ih => exact ih (hinv _ _ _ hs he hstep)

theorem mono {Q : σ → ε → Prop} (hPQ : ∀ s e, P s e → Q s e) {s t : σ} {es : List ε}
    (h : Steps Step P s es t) : Steps Step Q s es t := by
  induction h with
  | nil => exact .nil _
  | cons he hstep _ ih => exact .cons (hPQ _ _ he) hstep ih

end Steps

end Relation

/-! ## Nested calls -/

/-- What a step does to the stack of the calls under way, the innermost first: `Restores a` says that
the state after the step restores `a`. -/
inductive Nested (Restores : α → Prop) (old : List α) : List α → Prop
  | keep : Nested Restores old old
  | push (a : α) : Nested Restores old (a :: old)
  | pop {new : List α} (inner : List α) (a : α) (hold : old = inner ++ a :: new)
      (hrestores : Restores a) : Nested Restores old new

/-- Steps while more than `n` calls are under way; the last one ends with `n` of them. -/
inductive Until (step : σ → ε → Option σ) (ok : σ → ε → Prop) (calls : σ → List α) (n : Nat) :
    σ → List ε → σ → Prop
  | last {s t : σ} {e : ε} (hdeep : n < (calls s).length) (hok : ok s e)
      (hstep : step s e = some t) (hend : (calls t).length = n) : Until step ok calls n s [e] t
  | cons {s s' t : σ} {e : ε} {es : List ε} (hdeep : n < (calls s).length) (hok : ok s e)
      (hstep : step s e = some s') (hrun : Until step ok calls n s' es t) :
      Until step ok calls n s (e :: es) t

theorem Until.deep {calls : σ → List α} {n : Nat} {s t : σ} {es : List ε}
    (h : Until step ok calls n s es t) : n < (calls s).length := by
  cases h with
  | last hdeep => exact hdeep
  | cons hdeep => exact hdeep

/-- The end of a stack that is longer than `below` stays while the stack is. -/
theorem Nested.suffix {Restores : α → Prop} {old new below : List α} {a : α}
    (h : Nested Restores old new) (hold : a :: below <:+ old) (hlong : below.length < new.length) :
    a :: below <:+ new := by
  cases h with
  | keep => exact hold
  | push b => exact hold.trans (List.suffix_cons b old)
  | pop inner b heq _ =>
    have hnew : new <:+ old := ⟨inner ++ [b], by rw [heq, List.append_assoc]; rfl⟩
    exact List.suffix_of_suffix_length_le hold hnew hlong

/-- The step that ends the call restores what it was started from. -/
theorem Nested.restores {Restores : α → Prop} {old new below : List α} {a : α}
    (h : Nested Restores old new) (hold : a :: below <:+ old) (hend : new.length = below.length) :
    new = below ∧ Restores a := by
  have hlen := hold.length_le
  rw [List.length_cons] at hlen
  cases h with
  | keep => omega
  | push b => rw [List.length_cons] at hend; omega
  | pop inner b heq hrestores =>
    have hnew : b :: new <:+ old := ⟨inner, heq.symm⟩
    have hlength : (b :: new).length = (a :: below).length := by
      rw [List.length_cons, List.length_cons, hend]
    have hsame : b :: new <:+ a :: below :=
      List.suffix_of_suffix_length_le hnew hold (Nat.le_of_eq hlength)
    cases hsame.eq_of_length hlength
    exact ⟨rfl, hrestores⟩

/-- A call started from `a`, over the calls `below`, is run to its end. -/
theorem Until.restores {calls : σ → List α} {Inv : σ → Prop} {Restores : σ → α → Prop}
    (hinv : ∀ s e s', Inv s → ok s e → step s e = some s' → Inv s')
    (hnested : ∀ s e s', Inv s → ok s e → step s e = some s' →
      Nested (Restores s') (calls s) (calls s'))
    {below : List α} {a : α} {s t : σ} {es : List ε}
    (h : Until step ok calls below.length s es t) (hs : Inv s) (ha : a :: below <:+ calls s) :
    calls t = below ∧ Restores t a := by
  induction h with
  | last hdeep hok hstep hend => exact (hnested _ _ _ hs hok hstep).restores ha hend
  | cons hdeep hok hstep hrun ih =>
    exact ih (hinv _ _ _ hs hok hstep)
      ((hnested _ _ _ hs hok hstep).suffix ha hrun.deep)

end Quirrel.Lib
