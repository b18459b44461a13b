import Mathlib.Tactic.Basic

/-!
# Masks written as the names of a table

A table gives a mask of bits to each of its entries. The greedy pass over the table takes each
entry whose mask lies inside what is left and removes its bits. It takes the mask apart completely
if the mask is a union of entries and every entry of the union is nested in each earlier entry of
the table or apart from it.
-/

set_option autoImplicit false

namespace Quirrel.Lib

variable {w : Nat} {δ : Type}

/-- Every bit of `a` is one of `b`. -/
def MaskLe (a b : BitVec w) : Prop := ∀ i, a.getLsbD i = true → b.getLsbD i = true

theorem maskLe_iff_and (a b : BitVec w) : MaskLe a b ↔ b &&& a = a := by
  constructor
  · intro h
    apply BitVec.eq_of_getLsbD_eq
    intro i _
    rw [BitVec.getLsbD_and]
    cases ha : a.getLsbD i with
    | false => exact Bool.and_false _
    | true => rw [h i ha, Bool.and_true]
  · intro h i hi
    rw [← h, BitVec.getLsbD_and, Bool.and_eq_true] at hi
    exact hi.1

theorem MaskLe.trans {a b c : BitVec w} (hab : MaskLe a b) (hbc : MaskLe b c) : MaskLe a c :=
  fun i hi => hbc i (hab i hi)

theorem MaskLe.left (a b : BitVec w) : MaskLe a (a ||| b) := by
  intro i hi
  rw [BitVec.getLsbD_or, hi, Bool.true_or]

theorem MaskLe.right (a b : BitVec w) : MaskLe b (a ||| b) := by
  intro i hi
  rw [BitVec.getLsbD_or, hi, Bool.or_true]

/-- A mask that contains all ones is all ones. -/
theorem MaskLe.eq_allOnes {m : BitVec w} (h : MaskLe (BitVec.allOnes w) m) :
    m = BitVec.allOnes w := by
  apply BitVec.eq_of_getLsbD_eq
  intro i hi
  have hone : (BitVec.allOnes w).getLsbD i = true := by simpa using hi
  rw [h i hone, hone]

/-- The mask of all the entries of a list. -/
def unionMask (mask : δ → BitVec w) (ds : List δ) : BitVec w :=
  ds.foldr (fun d m => mask d ||| m) 0

/-- The entries that the greedy pass over the table takes. -/
def cover (mask : δ → BitVec w) : List δ → BitVec w → List δ
  | [], _ => []
  | d :: ds, m =>
    if m &&& mask d = mask d then d :: cover mask ds (m &&& ~~~ mask d) else cover mask ds m

/-- Each bit of the mask is one of an entry inside the mask. -/
def Covered (mask : δ → BitVec w) (ds : List δ) (m : BitVec w) : Prop :=
  ∀ i, m.getLsbD i = true → ∃ d ∈ ds, MaskLe (mask d) m ∧ (mask d).getLsbD i = true

/-- The entry is apart from the earlier one or nested in it. -/
def NestedMask (earlier later : BitVec w) : Prop :=
  earlier &&& later = 0 ∨ MaskLe later earlier

section Greedy

variable {mask : δ → BitVec w}

theorem cover_subset (ds : List δ) (m : BitVec w) : cover mask ds m ⊆ ds := by
  induction ds generalizing m with
  | nil => exact List.Subset.refl _
  | cons d ds ih =>
    rw [cover]
    split
    · exact List.cons_subset_cons d (ih _)
    · exact List.subset_cons_of_subset d (ih m)

theorem Covered.mask_of_mem {ds : List δ} {d : δ} (hd : d ∈ ds) : Covered mask ds (mask d) :=
  fun _ hi => ⟨d, hd, fun _ hj => hj, hi⟩

theorem Covered.or {ds : List δ} {a b : BitVec w} (ha : Covered mask ds a)
    (hb : Covered mask ds b) : Covered mask ds (a ||| b) := by
  intro i hi
  rw [BitVec.getLsbD_or, Bool.or_eq_true] at hi
  rcases hi with hi | hi
  · obtain ⟨d, hd, hle, hbit⟩ := ha i hi
    exact ⟨d, hd, hle.trans (MaskLe.left a b), hbit⟩
  · obtain ⟨d, hd, hle, hbit⟩ := hb i hi
    exact ⟨d, hd, hle.trans (MaskLe.right a b), hbit⟩

theorem Covered.zero (ds : List δ) : Covered mask ds 0 := by
  intro i hi
  simp at hi

/-- What the removal of the first entry leaves is covered by the rest of the table. -/
theorem Covered.remove {d : δ} {ds : List δ} {m : BitVec w}
    (hnested : ∀ e ∈ ds, MaskLe (mask e) m → NestedMask (mask d) (mask e))
    (h : Covered mask (d :: ds) m) : Covered mask ds (m &&& ~~~ mask d) := by
  intro i hi
  rw [BitVec.getLsbD_and, Bool.and_eq_true, BitVec.getLsbD_not, Bool.and_eq_true,
    Bool.not_eq_true'] at hi
  obtain ⟨hm, hlt, hd⟩ := hi
  obtain ⟨e, he, hle, hbit⟩ := h i hm
  rcases List.mem_cons.mp he with rfl | hmem
  · rw [hd] at hbit
    cases hbit
  · rcases hnested e hmem hle with hapart | hin
    · -- apart from the removed entry, so still inside what is left
      refine ⟨e, hmem, ?_, hbit⟩
      intro j hj
      have hzero : (mask d &&& mask e).getLsbD j = false := by rw [hapart]; simp
      rw [BitVec.getLsbD_and, hj, Bool.and_true] at hzero
      rw [BitVec.getLsbD_and, hle j hj, BitVec.getLsbD_not, hzero,
        decide_eq_true (BitVec.lt_of_getLsbD hj)]
      rfl
    · have := hin i hbit
      rw [hd] at this
      cases this

/-- An entry that is not inside the mask covers none of it. -/
theorem Covered.skip {d : δ} {ds : List δ} {m : BitVec w} (hd : ¬ MaskLe (mask d) m)
    (h : Covered mask (d :: ds) m) : Covered mask ds m := by
  intro i hi
  obtain ⟨e, he, hle, hbit⟩ := h i hi
  rcases List.mem_cons.mp he with rfl | hmem
  · exact absurd hle hd
  · exact ⟨e, hmem, hle, hbit⟩

theorem or_and_not_of_le {a m : BitVec w} (h : MaskLe a m) : a ||| (m &&& ~~~ a) = m := by
  apply BitVec.eq_of_getLsbD_eq
  intro i hi
  rw [BitVec.getLsbD_or, BitVec.getLsbD_and, BitVec.getLsbD_not, decide_eq_true hi, Bool.true_and]
  cases ha : a.getLsbD i with
  | false => simp
  | true => simp [h i ha]

/-- The greedy pass takes the mask apart completely. -/
theorem unionMask_cover {ds : List δ} {m : BitVec w}
    (hnested : ds.Pairwise fun d e => MaskLe (mask e) m → NestedMask (mask d) (mask e))
    (h : Covered mask ds m) : unionMask mask (cover mask ds m) = m := by
  induction ds generalizing m with
  | nil =>
    apply BitVec.eq_of_getLsbD_eq
    intro i _
    cases hi : m.getLsbD i with
    | false => exact BitVec.getLsbD_zero
    | true =>
      obtain ⟨d, hd, _⟩ := h i hi
      cases hd
  | cons d ds ih =>
    obtain ⟨hd, hds⟩ := List.pairwise_cons.mp hnested
    rw [cover]
    split
    next hin =>
      have hle := (maskLe_iff_and _ _).mpr hin
      have hsub : MaskLe (m &&& ~~~ mask d) m := by
        intro i hi
        rw [BitVec.getLsbD_and, Bool.and_eq_true] at hi
        exact hi.1
      have hrest := ih (hds.imp fun hpair he => hpair (he.trans hsub)) (h.remove hd)
      rw [unionMask, List.foldr_cons]
      rw [unionMask] at hrest
      rw [hrest, or_and_not_of_le hle]
    next hout =>
      exact ih hds (h.skip fun hle => hout ((maskLe_iff_and _ _).mp hle))

theorem cover_ne_nil {ds : List δ} {m : BitVec w} (hm : m ≠ 0)
    (hunion : unionMask mask (cover mask ds m) = m) : cover mask ds m ≠ [] := by
  intro hnil
  rw [hnil] at hunion
  exact hm hunion.symm

end Greedy

end Quirrel.Lib
