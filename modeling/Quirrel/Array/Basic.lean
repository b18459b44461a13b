import Quirrel.Lib.InPlace
import Quirrel.Vm.Object

/-!
# `sqvector` and `SQArray`

The cells of an array with the number of cells allocated for them. Sizes are of the 32-bit
`size_type`: a script integer that becomes a size loses its upper half (`sizeType`). An operation
that writes or keeps a cell beyond the allocation has no result.
-/

set_option autoImplicit false

namespace Quirrel.Array

open Quirrel.Lib Quirrel.Vm

/-! ## Numbers -/

/-- A value that `sq_isnumeric` accepts. -/
inductive SQNumber where
  | integer (i : SQInteger)
  | float (f : SQFloat)
  deriving DecidableEq

/-- `(SQInteger)f`: the integer part. Where it does not fit in 64 bits, and for a NaN, the result is
the machine's. -/
def floatToInteger (cast : SQFloat → SQInteger) (f : SQFloat) : SQInteger :=
  match f.unpack with
  | .notANumber => cast f
  | u =>
    let n := u.toInt (-2 ^ 63 - 1) (2 ^ 63)
    if -2 ^ 63 ≤ n ∧ n < 2 ^ 63 then BitVec.ofInt 64 n else cast f

/-- `tointeger` -/
def SQNumber.tointeger (cast : SQFloat → SQInteger) : SQNumber → SQInteger
  | .integer i => i
  | .float f => floatToInteger cast f

/-- `size_type` -/
abbrev SizeType := BitVec 32

/-- The conversion of an `SQInteger` to a `size_type`. -/
def sizeType (n : SQInteger) : SizeType :=
  n.setWidth 32

theorem toNat_sizeType {n : SQInteger} (h0 : 0 ≤ n.toInt) (h : n.toInt < 2 ^ 32) :
    (sizeType n).toNat = n.toInt.toNat := by
  have hcond := BitVec.toInt_eq_toNat_cond n
  have hlt := n.isLt
  rw [sizeType, BitVec.toNat_setWidth]
  split at hcond <;> omega

/-! ## `sqvector` -/

/-- `sqvector`: the values and the allocated size, which they fit. -/
structure SqVector (α : Type) where
  vals : List α
  allocated : SizeType
  fits : vals.length ≤ allocated.toNat

namespace SqVector

variable {α : Type}

/-- The vector as it is constructed. -/
def empty : SqVector α :=
  ⟨[], 0, Nat.le_refl 0⟩

/-- `size()` -/
def size (v : SqVector α) : Nat :=
  v.vals.length

theorem size_lt (v : SqVector α) : v.size < 2 ^ 32 :=
  Nat.lt_of_le_of_lt v.fits v.allocated.isLt

/-- The cells become `vals`, if they all lie inside the allocation. -/
def store (v : SqVector α) (vals : List α) : Option (SqVector α) :=
  if h : vals.length ≤ v.allocated.toNat then some ⟨vals, v.allocated, h⟩ else none

/-- `_realloc` -/
def realloc (v : SqVector α) (newsize : SizeType) : Option (SqVector α) :=
  let newsize := if 0 < newsize.toNat then newsize else 4#32
  if h : v.size ≤ newsize.toNat then some ⟨v.vals, newsize, h⟩ else none

/-- A reallocation that only some calls make. -/
def reallocIf (p : Prop) [Decidable p] (v : SqVector α) (newsize : SizeType) :
    Option (SqVector α) :=
  if p then v.realloc newsize else some v

/-- `resize` -/
def resize (v : SqVector α) (newsize : SizeType) (fill : α) : Option (SqVector α) := do
  let v ← v.reallocIf (v.allocated.toNat < newsize.toNat) newsize
  if v.size < newsize.toNat then
    v.store (v.vals ++ List.replicate (newsize.toNat - v.size) fill)
  else v.store (v.vals.take newsize.toNat)

/-- `shrinktofit` -/
def shrinktofit (v : SqVector α) : Option (SqVector α) :=
  if 4 < v.size then v.realloc (.ofNat 32 v.size) else some v

/-- `push_back` -/
def pushBack (v : SqVector α) (x : α) : Option (SqVector α) := do
  let v ← v.reallocIf (v.allocated.toNat ≤ v.size) (.ofNat 32 (v.size * 2))
  v.store (v.vals ++ [x])

/-- `pop_back` -/
def popBack (v : SqVector α) : Option (SqVector α) :=
  v.store v.vals.dropLast

/-- `insert` -/
def insert (null : α) (v : SqVector α) (idx : SizeType) (x : α) : Option (SqVector α) := do
  let v ← v.resize (.ofNat 32 (v.size + 1)) null
  if idx.toNat < v.size then
    v.store ((shiftUp v.vals idx.toNat (v.size - 1)).set idx.toNat x)
  else none

/-- `remove` -/
def remove (v : SqVector α) (idx : SizeType) : Option (SqVector α) :=
  v.store (v.vals.eraseIdx idx.toNat)

/-! ### What the operations do below the limits of `size_type` -/

theorem toNat_ofNat_sizeType {n : Nat} (h : n < 2 ^ 32) : (BitVec.ofNat 32 n).toNat = n := by
  rw [BitVec.toNat_ofNat]
  exact Nat.mod_eq_of_lt h

theorem store_eq_some (v : SqVector α) {vals : List α} (h : vals.length ≤ v.allocated.toNat) :
    ∃ w, v.store vals = some w ∧ w.vals = vals :=
  ⟨_, dif_pos h, rfl⟩

theorem realloc_eq_some {v : SqVector α} {newsize : SizeType} (h : v.size ≤ newsize.toNat) :
    ∃ w, v.realloc newsize = some w ∧ w.vals = v.vals ∧ newsize.toNat ≤ w.allocated.toNat ∧
      1 ≤ w.allocated.toNat := by
  by_cases h0 : 0 < newsize.toNat
  · have hrealloc : v.realloc newsize = some ⟨v.vals, newsize, h⟩ := by
      simp only [realloc, if_pos h0, dif_pos h]
    exact ⟨_, hrealloc, rfl, Nat.le_refl _, h0⟩
  · have hsize : v.size ≤ (4#32).toNat := by omega
    have hrealloc : v.realloc newsize = some ⟨v.vals, 4#32, hsize⟩ := by
      simp only [realloc, if_neg h0, dif_pos hsize]
    exact ⟨_, hrealloc, rfl, Nat.le_of_not_lt h0 |>.trans (Nat.zero_le 4), Nat.le_add_left 1 3⟩

/-- Room for `n` cells, by a reallocation where there is none yet. -/
theorem reallocIf_eq_some (v : SqVector α) (p : Prop) [Decidable p] {newsize : SizeType} {n : Nat}
    (hsize : v.size ≤ newsize.toNat) (hroom : n ≤ newsize.toNat ∨ n ≤ 1)
    (henough : ¬ p → n ≤ v.allocated.toNat) :
    ∃ w, v.reallocIf p newsize = some w ∧ w.vals = v.vals ∧ n ≤ w.allocated.toNat := by
  by_cases h : p
  · obtain ⟨w, hw, hvals, halloc, hone⟩ := realloc_eq_some hsize
    exact ⟨w, by rw [reallocIf, if_pos h, hw], hvals, by omega⟩
  · exact ⟨v, by rw [reallocIf, if_neg h], rfl, henough h⟩

theorem resize_eq_some (v : SqVector α) (newsize : SizeType) (fill : α) :
    ∃ w, v.resize newsize fill = some w ∧
      w.vals = v.vals.take newsize.toNat ++ List.replicate (newsize.toNat - v.size) fill := by
  by_cases hgrow : v.size < newsize.toNat
  · obtain ⟨r, hr, hvals, halloc⟩ := reallocIf_eq_some v (v.allocated.toNat < newsize.toNat)
      (n := newsize.toNat) (Nat.le_of_lt hgrow) (Or.inl (Nat.le_refl _)) (by omega)
    have hsize : r.size = v.size := congrArg List.length hvals
    have hfits : (r.vals ++ List.replicate (newsize.toNat - r.size) fill).length ≤
        r.allocated.toNat := by
      rw [List.length_append, List.length_replicate, ← size]
      omega
    obtain ⟨w, hw, hwvals⟩ := store_eq_some r hfits
    refine ⟨w, ?_, ?_⟩
    · rw [resize, hr, Option.bind_eq_bind, Option.bind_some, if_pos (by omega), hw]
    · rw [hwvals, hvals, hsize, List.take_of_length_le (by rw [← size]; omega)]
  · -- cells are only dropped: the allocation is large enough as it is
    have hfits : v.size ≤ v.allocated.toNat := v.fits
    have hroom : v.reallocIf (v.allocated.toNat < newsize.toNat) newsize = some v :=
      if_neg (by omega)
    have htake : (v.vals.take newsize.toNat).length ≤ v.allocated.toNat := by
      rw [List.length_take]
      omega
    obtain ⟨w, hw, hwvals⟩ := store_eq_some v htake
    refine ⟨w, ?_, ?_⟩
    · rw [resize, hroom, Option.bind_eq_bind, Option.bind_some, if_neg hgrow, hw]
    · have hnone : newsize.toNat - v.size = 0 := by omega
      rw [hwvals, hnone, List.replicate_zero, List.append_nil]

theorem shrinktofit_eq_some (v : SqVector α) : ∃ w, v.shrinktofit = some w ∧ w.vals = v.vals := by
  rw [shrinktofit]
  split
  · have hsize : v.size ≤ (BitVec.ofNat 32 v.size).toNat := by
      rw [toNat_ofNat_sizeType v.size_lt]
    obtain ⟨w, hw, hvals, -⟩ := realloc_eq_some hsize
    exact ⟨w, hw, hvals⟩
  · exact ⟨v, rfl, rfl⟩

/-- Doubling the allocation leaves room for one cell more, as long as it does not overflow. -/
theorem pushBack_eq_some {v : SqVector α} (h : v.size < 2 ^ 31) (x : α) :
    ∃ w, v.pushBack x = some w ∧ w.vals = v.vals ++ [x] := by
  have hdouble : (BitVec.ofNat 32 (v.size * 2)).toNat = v.size * 2 :=
    toNat_ofNat_sizeType (by omega)
  obtain ⟨r, hr, hvals, halloc⟩ := reallocIf_eq_some v (v.allocated.toNat ≤ v.size)
    (Nat.le_trans (by omega) (Nat.le_of_eq hdouble.symm)) (n := v.size + 1) (by omega) (by omega)
  have hfits : (r.vals ++ [x]).length ≤ r.allocated.toNat := by
    rw [hvals, List.length_append, List.length_singleton, ← size]
    omega
  obtain ⟨w, hw, hwvals⟩ := store_eq_some r hfits
  refine ⟨w, ?_, ?_⟩
  · rw [pushBack, hr, Option.bind_eq_bind, Option.bind_some, hw]
  · rw [hwvals, hvals]

theorem popBack_eq_some (v : SqVector α) : ∃ w, v.popBack = some w ∧ w.vals = v.vals.dropLast := by
  have hfits := v.fits
  exact store_eq_some v (by rw [List.length_dropLast]; omega)

theorem insert_eq_some {v : SqVector α} {idx : SizeType} (null x : α) (hidx : idx.toNat ≤ v.size)
    (h : v.size + 1 < 2 ^ 32) :
    ∃ w, v.insert null idx x = some w ∧ w.vals = v.vals.insertIdx idx.toNat x := by
  obtain ⟨r, hr, hvals⟩ := resize_eq_some v (.ofNat 32 (v.size + 1)) null
  have hcells : r.vals = v.vals ++ [null] := by
    rw [hvals, toNat_ofNat_sizeType h, List.take_of_length_le (by rw [← size]; omega),
      Nat.add_sub_cancel_left]
    rfl
  have hsize : r.size = v.size + 1 := by
    rw [size, hcells, List.length_append]
    rfl
  have hfits : ((shiftUp r.vals idx.toNat (r.size - 1)).set idx.toNat x).length ≤
      r.allocated.toNat := by
    rw [List.length_set, length_shiftUp]
    exact r.fits
  obtain ⟨w, hw, hwvals⟩ := store_eq_some r hfits
  refine ⟨w, ?_, ?_⟩
  · rw [insert, hr, Option.bind_eq_bind, Option.bind_some, if_pos (by omega), hw]
  · rw [hwvals, hsize, Nat.add_sub_cancel, hcells]
    exact insert_shiftUp hidx null x

theorem remove_eq_some (v : SqVector α) (idx : SizeType) :
    ∃ w, v.remove idx = some w ∧ w.vals = v.vals.eraseIdx idx.toNat := by
  have hfits := v.fits
  have hle := List.length_eraseIdx_le v.vals idx.toNat
  exact store_eq_some v (by omega)

end SqVector

end Quirrel.Array
