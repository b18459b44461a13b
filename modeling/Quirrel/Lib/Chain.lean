import Mathlib.Data.List.Nodup
import Mathlib.Data.List.Perm.Subperm
import Mathlib.Logic.Function.Basic

/-!
# Singly linked lists

`Chain next head l` says that following `next` from the pointer `head` meets exactly the elements
of `l` and ends in a null pointer. A chain meets no element twice (`Chain.nodup`), so a write to
the successor of an element outside a chain leaves the chain (`Chain.update_of_notMem`), and a write
to the successor of one inside can unlink the element behind it (`Chain.unlink`). A successor may become
the head of any chain that does not meet its element: all chains still end (`Chain.redirect`).
-/

set_option autoImplicit false

namespace Quirrel.Lib

universe u

variable {α : Type u}

/-- Following `next` from the pointer meets exactly the listed elements. -/
inductive Chain (next : α → Option α) : Option α → List α → Prop
  | nil : Chain next none []
  | cons {p : α} {l : List α} : Chain next (next p) l → Chain next (some p) (p :: l)

namespace Chain

variable {next next' : α → Option α} {head : Option α} {l l' : List α}

theorem cons_iff {p : α} : Chain next (some p) (p :: l) ↔ Chain next (next p) l :=
  ⟨fun h => by cases h with | cons h => exact h, .cons⟩

/-- A null pointer has the empty chain only, any other pointer one that begins with it. -/
theorem head_eq (h : Chain next head l) : head = l.head? := by
  cases h <;> rfl

theorem unique (h : Chain next head l) (h' : Chain next head l') : l = l' := by
  induction h generalizing l' with
  | nil => cases h'; rfl
  | @cons p l _ ih =>
    cases h' with
    | cons h' => exact congrArg (p :: ·) (ih h')

/-- An element of a chain begins the rest of it. -/
theorem suffix {q : α} (h : Chain next head l) (hq : q ∈ l) :
    ∃ rest, Chain next (next q) rest ∧ q :: rest <:+ l := by
  induction h with
  | nil => exact absurd hq List.not_mem_nil
  | @cons p l h ih =>
    rcases List.mem_cons.mp hq with rfl | hq
    · exact ⟨l, h, List.suffix_rfl⟩
    · obtain ⟨rest, hrest, hs⟩ := ih hq
      exact ⟨rest, hrest, hs.trans (List.suffix_cons p l)⟩

/-- An element is the head or the successor of an element. -/
theorem mem_iff {p : α} (h : Chain next head l) :
    p ∈ l ↔ head = some p ∨ ∃ q ∈ l, next q = some p := by
  induction h with
  | nil => simp
  | @cons q l _ ih =>
    rw [List.mem_cons, ih, Option.some.injEq, eq_comm]
    simp only [List.mem_cons, exists_eq_or_imp]

theorem nodup (h : Chain next head l) : l.Nodup := by
  induction h with
  | nil => exact List.nodup_nil
  | @cons p l h ih =>
    refine List.nodup_cons.mpr ⟨fun hp => ?_, ih⟩
    -- the rest behind a second `p` would be the whole rest
    obtain ⟨rest, hrest, hs⟩ := h.suffix hp
    obtain rfl : rest = l := hrest.unique h
    exact absurd hs.length_le (by simp)

theorem congr (h : Chain next head l) (heq : ∀ q ∈ l, next' q = next q) :
    Chain next' head l := by
  induction h with
  | nil => exact .nil
  | @cons p l _ ih =>
    refine .cons ?_
    rw [heq p List.mem_cons_self]
    exact ih fun q hq => heq q (List.mem_cons_of_mem p hq)

variable [DecidableEq α]

theorem update_of_notMem {p : α} (h : Chain next head l) (hp : p ∉ l) (n : Option α) :
    Chain (Function.update next p n) head l :=
  h.congr fun q hq => by
    have hne : q ≠ p := fun heq => hp (heq ▸ hq)
    exact Function.update_of_ne hne n next

/-- A new element in front. -/
theorem push {p : α} (h : Chain next head l) (hp : p ∉ l) :
    Chain (Function.update next p head) (some p) (p :: l) := by
  refine .cons ?_
  rw [Function.update_self]
  exact h.update_of_notMem hp head

/-- The element behind `prev` is unlinked. -/
theorem unlink {prev p : α} {before after : List α}
    (h : Chain next head (before ++ prev :: p :: after)) :
    Chain (Function.update next prev (next p)) head (before ++ prev :: after) := by
  have hnodup := h.nodup
  induction before generalizing head with
  | nil =>
    cases h with
    | cons h =>
      have hp : Chain next (next p) after := by
        rw [h.head_eq] at h
        exact cons_iff.mp h
      have hprev : prev ∉ after :=
        fun hmem => (List.nodup_cons.mp hnodup).1 (List.mem_cons_of_mem p hmem)
      refine .cons ?_
      rw [Function.update_self]
      exact hp.update_of_notMem hprev _
  | cons q before ih =>
    cases h with
    | cons h =>
      have hq : q ≠ prev := by
        rintro rfl
        exact (List.nodup_cons.mp hnodup).1 (List.mem_append_right before List.mem_cons_self)
      refine .cons ?_
      rw [Function.update_of_ne hq]
      exact ih h (List.nodup_cons.mp hnodup).2

/-- The successor of `p` becomes the head of a chain without `p`. -/
theorem redirect {p : α} {n : Option α} {k : List α} (hk : Chain next head k) (h : Chain next n l)
    (hp : p ∉ l) : ∃ k', Chain (Function.update next p n) head k' ∧ k' ⊆ k ++ l := by
  induction hk with
  | nil => exact ⟨[], .nil, List.nil_subset _⟩
  | @cons q k _ ih =>
    by_cases hq : q = p
    · -- behind `p` there is now exactly the other chain
      subst hq
      refine ⟨q :: l, .cons ?_, ?_⟩
      · rw [Function.update_self]
        exact h.update_of_notMem hp n
      · exact List.cons_subset_cons q (List.subset_append_right k l)
    · obtain ⟨k', hk', hsub⟩ := ih
      refine ⟨q :: k', .cons ?_, List.cons_subset_cons q hsub⟩
      rw [Function.update_of_ne hq]
      exact hk'

end Chain

/-- A chain of numbers below `n` is no longer than `n`. -/
theorem Chain.length_le_of_lt {next : Nat → Option Nat} {head : Option Nat} {l : List Nat} {n : Nat}
    (h : Chain next head l) (hlt : ∀ q ∈ l, q < n) : l.length ≤ n := by
  have hsub : l ⊆ List.range n := fun q hq => List.mem_range.mpr (hlt q hq)
  have hle := (List.subperm_of_subset h.nodup hsub).length_le
  rwa [List.length_range] at hle

end Quirrel.Lib
