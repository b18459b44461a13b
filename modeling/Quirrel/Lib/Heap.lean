import Mathlib.Logic.Equiv.Basic
import Mathlib.Order.Defs.Unbundled

/-!
# Heaps in an array

The heap order for the layout in which node `p` has the children `2 * p` and `2 * p + 1`, so that
node `0` is its own first child. `HeapBut` is a heap with one node out of place: exchanging that
node with its greatest child moves the fault down (`HeapBut.swap`), until the node is above its
children (`HeapBut.heap`). The first node of a heap is its greatest (`HeapOn.le_root`).
-/

set_option autoImplicit false

namespace Quirrel.Lib

variable {α : Type} {le : α → α → Prop} {x : Nat → α} {lo hi r m : Nat}

/-- The layout of a binary heap in which node 0 is its own child. -/
def IsChild (p c : Nat) : Prop := c = p * 2 ∨ c = p * 2 + 1

theorem IsChild.parent {p c : Nat} (h : IsChild p c) : p = c / 2 := by
  rcases h with rfl | rfl <;> omega

/-- The nodes from `lo` on are above their children, of those up to `hi`. -/
def HeapOn (le : α → α → Prop) (x : Nat → α) (lo hi : Nat) : Prop :=
  ∀ p c, lo ≤ p → IsChild p c → c ≤ hi → le (x c) (x p)

/-- A heap but for the node `r`, whose children are below the parent of `r`. -/
structure HeapBut (le : α → α → Prop) (x : Nat → α) (lo hi r : Nat) : Prop where
  edge : ∀ p c, lo ≤ p → p ≠ r → IsChild p c → c ≤ hi → le (x c) (x p)
  skip : ∀ p c, lo ≤ p → p ≠ r → IsChild p r → IsChild r c → c ≤ hi → le (x c) (x p)

/-- No node has its children in the part of the array that ends before them. -/
theorem heapOn_of_lt (h : hi < lo * 2) : HeapOn le x lo hi := by
  intro p c hp hc hle
  rcases hc with rfl | rfl <;> omega

/-- One more node in front of a heap. -/
theorem HeapOn.heapBut (h : HeapOn le x (lo + 1) hi) : HeapBut le x lo hi lo where
  edge p c hp hne hc hle := h p c (by omega) hc hle
  skip p c hp hne hpr hrc hle := by
    have := hpr.parent
    omega

theorem HeapOn.anti {hi' : Nat} (h : HeapOn le x lo hi) (hle : hi' ≤ hi) : HeapOn le x lo hi' :=
  fun p c hp hc hc' => h p c hp hc (Nat.le_trans hc' hle)

/-- The first node replaced by anything. -/
theorem HeapOn.heapBut_root {y : Nat → α} (h : HeapOn le x 0 hi)
    (hxy : ∀ i, 0 < i → i ≤ hi → y i = x i) : HeapBut le y 0 hi 0 where
  edge p c _ hne hc hle := by
    have hp : p = c / 2 := hc.parent
    rw [hxy c (by omega) hle, hxy p (by omega) (by omega)]
    exact h p c (Nat.zero_le p) hc hle
  skip p c _ hne hpr _ _ := by
    have := hpr.parent
    omega

/-- The node is not below a greatest child. -/
theorem HeapBut.heap (h : HeapBut le x lo hi r)
    (hr : ∀ c, IsChild r c → c ≤ hi → le (x c) (x r)) : HeapOn le x lo hi := by
  intro p c hp hc hle
  by_cases hpr : p = r
  · subst hpr
    exact hr c hc hle
  · exact h.edge p c hp hpr hc hle

/-- The node changes places with its greatest child. -/
theorem HeapBut.swap (hrefl : ∀ i, i ≤ hi → le (x i) (x i)) (h : HeapBut le x lo hi r) (hlo : lo ≤ r)
    (hm : IsChild r m) (hmr : m ≠ r) (hmhi : m ≤ hi) (hrm : le (x r) (x m))
    (hmax : ∀ c, IsChild r c → c ≤ hi → c ≠ r → le (x c) (x m)) :
    HeapBut le (x ∘ Equiv.swap r m) lo hi m := by
  have hat : ∀ i, i ≠ r → i ≠ m → (x ∘ Equiv.swap r m) i = x i := fun i hr hm =>
    congrArg x (Equiv.swap_apply_of_ne_of_ne hr hm)
  have hatr : (x ∘ Equiv.swap r m) r = x m := congrArg x (Equiv.swap_apply_left r m)
  have hatm : (x ∘ Equiv.swap r m) m = x r := congrArg x (Equiv.swap_apply_right r m)
  have hpar := hm.parent
  constructor
  · intro p c hp hpm hc hle
    by_cases hpr : p = r
    · -- the place that the greatest child moved to
      subst hpr
      rw [hatr]
      by_cases hcm : c = m
      · rw [hcm, hatm]
        exact hrm
      · by_cases hcr : c = p
        · rw [hcr, hatr]
          exact hrefl m hmhi
        · rw [hat c hcr hcm]
          exact hmax c hc hle hcr
    · rw [hat p hpr hpm]
      by_cases hcr : c = r
      · -- above it the order holds because the children of the node were below its parent
        subst hcr
        rw [hatr]
        exact h.skip p m hp hpr hc hm hmhi
      · have hcm : c ≠ m := by
          intro hcm
          have := hc.parent
          omega
        rw [hat c hcr hcm]
        exact h.edge p c hp hpr hc hle
  · intro p c hp hpm hpc hc hle
    have hpr : p = r := by
      have := hpc.parent
      omega
    have hcp := hc.parent
    have hcm : c ≠ m := by
      rcases hm with hm | hm <;> rcases hc with hc | hc <;> omega
    have hcr : c ≠ r := by
      rcases hm with hm | hm <;> rcases hc with hc | hc <;> omega
    rw [hpr, hatr, hat c hcr hcm]
    exact h.edge m c (by rcases hm with hm | hm <;> omega) hmr hc hle

/-- The first node is the greatest. -/
theorem HeapOn.le_root (hrefl : ∀ i, i ≤ hi → le (x i) (x i))
    (htrans : ∀ i j k, i ≤ hi → j ≤ hi → k ≤ hi → le (x i) (x j) → le (x j) (x k) → le (x i) (x k))
    (h : HeapOn le x 0 hi) {i : Nat} (hi' : i ≤ hi) : le (x i) (x 0) := by
  induction i using Nat.strongRecOn with
  | _ i ih =>
    by_cases h0 : i = 0
    · rw [h0]
      exact hrefl 0 (Nat.zero_le _)
    · have hchild : IsChild (i / 2) i := by
        unfold IsChild
        omega
      have hup := h (i / 2) i (Nat.zero_le _) hchild hi'
      exact htrans i (i / 2) 0 hi' (by omega) (Nat.zero_le _) hup (ih (i / 2) (by omega) (by omega))

end Quirrel.Lib
