import Mathlib.Data.Set.Finite.Basic
import Mathlib.Order.WellFounded
import Mathlib.Data.Fintype.Card
import Mathlib.Logic.Relation

/-!
# Where the paths that lead to a point begin

When finitely many points lead to `a`, and each of them meets `P` or has another one before it, then a path
to `a` begins at a point that meets `P`, or comes from a cycle.
-/

set_option autoImplicit false

namespace Quirrel.Lib

open Relation (ReflTransGen TransGen)

universe u

variable {α : Type u} {r : α → α → Prop} {P : α → Prop} {a : α}

/-- Without a cycle among them, one of the points that lead to `a` has none before it. -/
theorem exists_first (hfinite : {b | ReflTransGen r b a}.Finite)
    (hacyclic : ∀ b, ReflTransGen r b a → ¬ TransGen r b b) :
    ∃ b, ReflTransGen r b a ∧ ∀ c, ¬ r c b := by
  have : Finite {b | ReflTransGen r b a} := hfinite
  let before : {b | ReflTransGen r b a} → {b | ReflTransGen r b a} → Prop := fun b c => TransGen r b.1 c.1
  have htrans : IsTrans _ before := ⟨fun _ _ _ hbc hcd => hbc.trans hcd⟩
  have hirrefl : Std.Irrefl before := ⟨fun b hb => hacyclic b.1 b.2 hb⟩
  have hwf : WellFounded before := Finite.wellFounded_of_trans_of_irrefl before
  obtain ⟨b, -, hmin⟩ := hwf.has_min Set.univ ⟨⟨a, .refl⟩, trivial⟩
  refine ⟨b.1, b.2, fun c hcb => ?_⟩
  exact hmin ⟨c, .head hcb b.2⟩ trivial (.single hcb)

theorem exists_start_or_cycle (hfinite : {b | ReflTransGen r b a}.Finite)
    (hbefore : ∀ b, ReflTransGen r b a → P b ∨ ∃ c, r c b) :
    (∃ b, P b ∧ ReflTransGen r b a) ∨ ∃ c, TransGen r c c ∧ ReflTransGen r c a := by
  by_cases hcycle : ∃ c, TransGen r c c ∧ ReflTransGen r c a
  · exact .inr hcycle
  · obtain ⟨b, hb, hfirst⟩ := exists_first hfinite fun b hb hbb => hcycle ⟨b, hbb, hb⟩
    rcases hbefore b hb with hP | ⟨c, hc⟩
    · exact .inl ⟨b, hP, hb⟩
    · exact absurd hc (hfirst c)

end Quirrel.Lib
